import NoobKernel.Model.Tree

/-! # Links between parents and children -/

namespace NoobKernel.Tree

open Library Function List Outcome Option

variable {s s' : State} {p q c d child : ℕ} {pr qr cr dr : Proc} {l : List ℕ} {vmShared : Bool}
  {pid : ℤ}

/-- The parent of each process is none, or it is not freed and has the process once in its
list. -/
def Linked (s : State) : Prop :=
  ∀ p pr q, s p = some pr → pr.parent = some q → ∃ qr, s q = some qr ∧ qr.children.count p = 1

/-- The links in both directions. -/
structure Inv (s : State) : Prop where
  linked : Linked s
  child : ∀ p pr c, s p = some pr → c ∈ pr.children → ∃ cr, s c = some cr ∧ cr.parent = some p

/-- A process whose parent is freed or does not know it. -/
def Orphan (d c : ℕ) (s : State) : Prop :=
  ∃ dr, s d = some dr ∧ dr.parent = some c ∧ ∀ cr, s c = some cr → d ∉ cr.children

/-- The children and the parent at an address. A freed structure has none. -/
def kids (s : State) (p : ℕ) : List ℕ := (s p).elim [] Proc.children

def par (s : State) (p : ℕ) : Option ℕ := (s p).bind Proc.parent

theorem kids_some (hp : s p = some pr) : kids s p = pr.children := by simp [kids, hp]

theorem par_some (hp : s p = some pr) : par s p = pr.parent := by simp [par, hp]

theorem kids_none (hp : s p = none) : kids s p = [] := by simp [kids, hp]

theorem par_none (hp : s p = none) : par s p = none := by simp [par, hp]

theorem inv_iff : Inv s ↔ ∀ p c, (kids s p).count c = if par s c = some p then 1 else 0 := by
  constructor
  · intro h p c
    split
    next hpar =>
      obtain ⟨cr, hc, hparent⟩ := bind_eq_some_iff.mp hpar
      obtain ⟨pr, hp, hcount⟩ := h.linked c cr p hc hparent
      rw [kids_some hp, hcount]
    next hpar =>
      refine count_eq_zero_of_not_mem fun hmem => hpar ?_
      cases hp : s p with
      | none => simp [kids_none hp] at hmem
      | some pr =>
        obtain ⟨cr, hc, hparent⟩ := h.child p pr c hp (kids_some hp ▸ hmem)
        rw [par_some hc, hparent]
  · intro h
    refine ⟨fun c cr p hc hparent => ?_, fun p pr c hp hmem => ?_⟩
    · have hcount := h p c
      rw [if_pos (by rw [par_some hc, hparent])] at hcount
      cases hp : s p with
      | none => simp [kids_none hp] at hcount
      | some pr => exact ⟨pr, rfl, kids_some hp ▸ hcount⟩
    · have hcount := h p c
      split at hcount
      next hpar => exact bind_eq_some_iff.mp hpar
      · exact absurd (kids_some hp ▸ hmem) (count_eq_zero.mp hcount)

theorem orphan_iff : Orphan d c s ↔ par s d = some c ∧ d ∉ kids s c := by
  constructor
  · rintro ⟨dr, hd, hparent, hlist⟩
    refine ⟨by rw [par_some hd, hparent], fun hmem => ?_⟩
    cases hc : s c with
    | none => simp [kids_none hc] at hmem
    | some cr => exact hlist cr hc (kids_some hc ▸ hmem)
  · intro ⟨hpar, hlist⟩
    obtain ⟨dr, hd, hparent⟩ := bind_eq_some_iff.mp hpar
    exact ⟨dr, hd, hparent, fun cr hc hmem => hlist (kids_some hc ▸ hmem)⟩

theorem Orphan.not_linked (h : Orphan d c s) : ¬Linked s := by
  obtain ⟨dr, hd, hparent, hlist⟩ := h
  intro hlinked
  obtain ⟨cr, hc, hcount⟩ := hlinked d dr c hd hparent
  have hzero : cr.children.count d = 0 := count_eq_zero_of_not_mem (hlist cr hc)
  omega

theorem Inv.nodup (h : Inv s) (hp : s p = some pr) : pr.children.Nodup := by
  refine nodup_iff_count_le_one.mpr fun c => ?_
  rw [← kids_some hp, inv_iff.mp h]
  split <;> omega

/-! ## Reading and writing -/

@[simp] theorem load_some (h : s p = some pr) : load p s = .ok pr := by
  rw [load, h]

theorem load_eq_ok (h : load p s = .ok pr) : s p = some pr := by
  unfold load at h
  split at h
  · cases h
  next hp =>
    obtain rfl := Except.ok.inj h
    exact hp

@[simp] theorem store_self : store p pr s p = some pr := update_self ..

theorem store_of_ne (h : q ≠ p) : store p pr s q = s q := update_of_ne h ..

theorem runs_iff : Runs p s ↔ ∃ pr, s p = some pr ∧ pr.zombie = false := by
  rw [Runs]
  cases s p with
  | none | some pr => simp

theorem kids_update (x : Option Proc) :
    kids (update s p x) = update (kids s) p (x.elim [] Proc.children) :=
  comp_update (fun x => Option.elim x [] Proc.children) s p x

theorem par_update (x : Option Proc) : par (update s p x) = update (par s) p (x.bind Proc.parent) :=
  comp_update (fun x => Option.bind x Proc.parent) s p x

theorem kids_store : kids (store p pr s) = update (kids s) p pr.children := kids_update _

theorem par_store : par (store p pr s) = update (par s) p pr.parent := par_update _

theorem Inv.same (h : Inv s) (hparent : pr.parent = par s p) (hchildren : pr.children = kids s p) :
    Inv (store p pr s) := by
  rw [inv_iff, kids_store, par_store, hparent, hchildren, update_eq_self, update_eq_self]
  exact inv_iff.mp h

/-! ## A new child -/

/-- The state after `child` was added to the children of `p`. -/
def adopted (vmShared : Bool) (p : ℕ) (pr : Proc) (child : ℕ) (pid : ℤ) (s : State) : State :=
  store p { pr with children := pr.children ++ [child] }
    (store child ⟨pid, some p, [], false, vmShared⟩ s)

theorem store_store (pr qr : Proc) : store p qr (store p pr s) = store p qr s := update_idem ..

theorem newChild_cases {room ready : Bool} (hp : s p = some pr) :
    (∃ r, newChild vmShared room ready p child pid s = .ok (r, s)) ∨
      s child = none ∧ ∃ r, newChild vmShared room ready p child pid s =
        .ok (r, adopted vmShared p pr child pid s) := by
  rw [newChild]
  cases halloc : allocProc room child s with
  | none => exact Or.inl ⟨_, rfl⟩
  | some s1 =>
    rw [allocProc] at halloc
    split at halloc
    next hroom =>
      obtain rfl := Option.some.inj halloc
      simp only [Bool.and_eq_true, isNone_iff_eq_none] at hroom
      have hne : p ≠ child := by
        rintro rfl
        cases hp.symm.trans hroom.2
      dsimp only
      rw [load_some store_self, ok_bind, store_store]
      split
      · refine Or.inl ⟨_, congrArg (fun s => Except.ok (_, s)) ?_⟩
        rw [store, update_idem, ← hroom.2, update_eq_self]
      · rw [load_some ((store_of_ne hne).trans hp)]
        exact Or.inr ⟨hroom.2, _, rfl⟩
    · cases halloc

section

variable (hp : s p = some pr) (hchild : s child = none)

include hchild

theorem kids_adopted : kids (adopted vmShared p pr child pid s) =
    update (kids s) p (pr.children ++ [child]) := by
  rw [adopted, kids_store, kids_store, ← kids_none hchild, update_eq_self]

include hp

theorem par_adopted : par (adopted vmShared p pr child pid s) = update (par s) child (some p) := by
  have hne : p ≠ child := by
    rintro rfl
    cases hp.symm.trans hchild
  rw [adopted, par_store, par_store, ← par_some hp, update_comm hne.symm, update_eq_self]

theorem Inv.adopted (h : Inv s) : Inv (adopted vmShared p pr child pid s) := by
  have hcount := inv_iff.mp h
  rw [inv_iff, kids_adopted hchild, par_adopted hp hchild]
  intro q c
  by_cases hc : c = child
  · subst hc
    have hzero : (kids s q).count c = 0 := by
      rw [hcount, par_none hchild]
      exact if_neg nofun
    rw [update_self]
    by_cases hq : q = p
    · subst hq
      rw [update_self, ← kids_some hp, count_append, hzero]
      simp
    · rw [update_of_ne hq, hzero]
      simp [Ne.symm hq]
  · rw [update_of_ne hc, ← hcount]
    by_cases hq : q = p
    · subst hq
      rw [update_self, ← kids_some hp, count_append]
      simp [Ne.symm hc]
    · rw [update_of_ne hq]

theorem Orphan.adopted (h : Orphan d c s) : Orphan d c (adopted vmShared p pr child pid s) := by
  rw [orphan_iff] at h ⊢
  rw [par_adopted hp hchild, kids_adopted hchild]
  have hdc : d ≠ child := by
    rintro rfl
    cases (par_none hchild).symm.trans h.1
  refine ⟨(update_of_ne hdc ..).trans h.1, ?_⟩
  by_cases hcp : c = p
  · subst hcp
    rw [update_self, ← kids_some hp]
    simpa [hdc] using h.2
  · rw [update_of_ne hcp]
    exact h.2

end

/-! ## Freeing a child -/

/-- The state after `c` was freed as a child of `p`. -/
def freed (p : ℕ) (pr : Proc) (c : ℕ) (s : State) : State :=
  update (store p { pr with children := pr.children.erase c } s) c none

theorem freed_of_ne (hq : q ≠ c) (hqp : q ≠ p) : freed p pr c s q = s q :=
  (update_of_ne hq ..).trans (store_of_ne hqp)

theorem freed_parent (hne : c ≠ p) :
    freed p pr c s p = some { pr with children := pr.children.erase c } :=
  (update_of_ne hne.symm ..).trans store_self

theorem reap_eq (hc : s c = some cr) (hp : s p = some pr) (hne : c ≠ p) :
    reap p c s = .ok (freed p pr c s) := by
  have hp' : store c { cr with parent := none } s p = some pr := (store_of_ne hne.symm).trans hp
  rw [reap, load_some hc, ok_bind]
  dsimp only
  rw [listDel, load_some hp', ok_bind, ok_bind, freeProc,
    load_some ((store_of_ne hne).trans store_self), ok_bind]
  rw [freed, store, store, store, update_comm hne, update_idem]

theorem kids_freed :
    kids (freed p pr c s) = update (update (kids s) p (pr.children.erase c)) c [] := by
  rw [freed, kids_update, kids_store]
  rfl

theorem par_freed (hp : s p = some pr) : par (freed p pr c s) = update (par s) c none := by
  rw [freed, par_update, par_store, ← par_some hp, update_eq_self]
  rfl

theorem Inv.par_eq (h : Inv s) (hmem : c ∈ kids s p) : par s c = some p := by
  by_contra hpar
  have hzero := inv_iff.mp h p c
  rw [if_neg hpar, count_eq_zero] at hzero
  exact hzero hmem

theorem Inv.freed (h : Inv s) (hp : s p = some pr) (hne : c ≠ p) (hmem : c ∈ pr.children)
    (hnone : kids s c = []) : Inv (freed p pr c s) := by
  have hcount := inv_iff.mp h
  have hparent : par s c = some p := h.par_eq (kids_some hp ▸ hmem)
  have hkids : kids (Tree.freed p pr c s) = update (kids s) p (pr.children.erase c) := by
    rw [kids_freed, update_comm hne.symm, ← hnone, update_eq_self]
  rw [inv_iff, hkids, par_freed hp]
  intro q d
  by_cases hdc : d = c
  · subst hdc
    rw [update_self, if_neg nofun]
    by_cases hq : q = p
    · subst hq
      rw [update_self, count_erase_self, ← kids_some hp, hcount, if_pos hparent]
    · rw [update_of_ne hq, hcount, hparent]
      exact if_neg fun he => hq (Option.some.inj he).symm
  · rw [update_of_ne hdc, ← hcount]
    by_cases hq : q = p
    · subst hq
      rw [update_self, count_erase_of_ne hdc, kids_some hp]
    · rw [update_of_ne hq]

theorem orphan_freed (hp : s p = some pr) (hdc : d ≠ c) (hparent : par s d = some c) :
    Orphan d c (freed p pr c s) := by
  rw [orphan_iff, par_freed hp, kids_freed, update_self, update_of_ne hdc]
  exact ⟨hparent, not_mem_nil⟩

theorem kids_freed_subset (hp : s p = some pr) (hq : q ≠ c) :
    kids (freed p pr c s) q ⊆ kids s q := by
  rw [kids_freed, update_of_ne hq]
  by_cases hqp : q = p
  · subst hqp
    rw [update_self, kids_some hp]
    exact erase_subset
  · rw [update_of_ne hqp]
    exact Subset.refl _

/-! ## The process tree over runs -/

/-- A call returns without a read of freed memory, and the links are as they have to be. -/
def Keeps (c : Call) (s : State) : Prop := ∃ s', call c s = .ok s' ∧ Linked s'

/-- A child that a round of `sys_wait4` takes. -/
def Waited (target : ℤ) (s : State) (c : ℕ) : Prop :=
  (s c).any (fun cr => (target = -1 ∨ target = cr.pid) ∧ cr.zombie) = true

instance (target : ℤ) (s : State) (c : ℕ) : Decidable (Waited target s c) :=
  inferInstanceAs (Decidable (_ = _))

/-- A child that `reap_zombie_threads` takes. -/
def Reapable (s : State) (c : ℕ) : Prop := (s c).any (fun cr => cr.vmShared && cr.zombie) = true

def Childless (s : State) (c : ℕ) : Prop := (s c).all (fun cr => cr.children.isEmpty) = true

/-- The calls for which the tree works: each process that they free has no children, as
`free_proc` asks for. -/
def Sound (c : Call) (s : State) : Prop :=
  match c with
  | .wait4 copied p target => copied = true → ∀ pr, s p = some pr →
      ∀ c, pr.children.find? (fun c => Waited target s c) = some c → Childless s c
  | .clone thread _ _ _ p _ _ => thread = true → ∀ pr, s p = some pr →
      ∀ c ∈ pr.children, Reapable s c → Childless s c
  | _ => True

theorem waited_iff {target : ℤ} (hc : s c = some cr) :
    Waited target s c ↔ (target = -1 ∨ target = cr.pid) ∧ cr.zombie = true := by
  simp [Waited, hc]

theorem reapable_iff (hc : s c = some cr) :
    Reapable s c ↔ cr.vmShared = true ∧ cr.zombie = true := by
  simp [Reapable, hc]

theorem childless_iff : Childless s c ↔ kids s c = [] := by
  cases hc : s c with
  | none | some cr => simp [Childless, kids, hc]

section

variable (h : Inv s) (hp : s p = some pr)

include h hp

theorem Inv.loads : ∀ c ∈ pr.children, ∃ cr, s c = some cr := by
  intro c hc
  obtain ⟨cr, hcr, -⟩ := h.child p pr c hp hc
  exact ⟨cr, hcr⟩

theorem wakeParent_ok : wakeParent pr.parent (store p qr s) = .ok () := by
  cases hparent : pr.parent with
  | none => rfl
  | some q =>
    obtain ⟨x, hq, -⟩ := h.linked p pr q hp hparent
    by_cases hqp : q = p
    · subst hqp
      simp only [wakeParent, load_some store_self, ok_bind]
    · simp only [wakeParent, load_some ((store_of_ne hqp).trans hq), ok_bind]

theorem Inv.sysExit : ∃ s', sysExit p s = .ok s' ∧ Inv s' := by
  refine ⟨store p { pr with zombie := true } s, ?_, h.same (par_some hp).symm (kids_some hp).symm⟩
  rw [Tree.sysExit, load_some hp, ok_bind]
  dsimp only
  rw [wakeParent_ok h hp, ok_bind]

/-! ## Searches -/

omit h hp in
theorem findChildByPid_spec (pid : ℤ) (hl : ∀ c ∈ l, ∃ cr, s c = some cr) :
    ∃ r, findChildByPid pid l s = .ok r ∧ ∀ c ∈ r, ∃ cr, s c = some cr := by
  induction l with
  | nil => exact ⟨none, rfl, nofun⟩
  | cons c rest ih =>
    obtain ⟨cr, hc⟩ := hl c mem_cons_self
    rw [findChildByPid, load_some hc, ok_bind]
    split
    · refine ⟨some c, rfl, fun c' hc' => ?_⟩
      obtain rfl := mem_some_iff.mp hc'
      exact ⟨cr, hc⟩
    · exact ih fun c' hc' => hl c' (mem_cons_of_mem _ hc')

theorem Inv.killTarget (pid : ℤ) :
    ∃ r, killTarget p pid s = .ok r ∧ ∀ c ∈ r, ∃ cr, s c = some cr := by
  rw [Tree.killTarget, load_some hp, ok_bind]
  split
  · refine ⟨some p, rfl, fun c hc => ?_⟩
    obtain rfl := mem_some_iff.mp hc
    exact ⟨pr, hp⟩
  obtain ⟨r, hr, hlive⟩ := findChildByPid_spec pid (h.loads hp)
  rw [hr, ok_bind]
  cases r with
  | some c => exact ⟨some c, rfl, hlive⟩
  | none =>
    cases hparent : pr.parent with
    | none => exact ⟨none, rfl, nofun⟩
    | some q =>
      obtain ⟨qr, hq, -⟩ := h.linked p pr q hp hparent
      dsimp only
      rw [load_some hq, ok_bind]
      exact findChildByPid_spec pid (h.loads hq)

theorem Inv.sysKill (pid sig : ℤ) :
    ∃ r s', sysKill p pid sig s = .ok (r, s') ∧ Inv s' := by
  unfold Tree.sysKill
  split
  · exact ⟨_, s, rfl, h⟩
  split
  · exact ⟨_, s, rfl, h⟩
  obtain ⟨r, hr, hlive⟩ := h.killTarget hp pid
  rw [hr, ok_bind]
  cases r with
  | none => exact ⟨_, s, rfl, h⟩
  | some target =>
    dsimp only
    split
    · obtain ⟨tr, ht⟩ := hlive target rfl
      obtain ⟨s', hrun, hinv⟩ := h.sysExit ht
      rw [hrun]
      exact ⟨0, s', rfl, hinv⟩
    · exact ⟨0, s, rfl, h⟩

end

theorem findZombie_spec (target : ℤ) (found : Bool) (hl : ∀ c ∈ l, ∃ cr, s c = some cr) :
    ∃ found', findZombie target found l s = .ok (l.find? (fun c => Waited target s c), found') := by
  induction l generalizing found with
  | nil => exact ⟨found, rfl⟩
  | cons c rest ih =>
    obtain ⟨cr, hc⟩ := hl c mem_cons_self
    have hrest : ∀ c' ∈ rest, ∃ cr, s c' = some cr := fun c' hc' => hl c' (mem_cons_of_mem _ hc')
    rw [findZombie, load_some hc, ok_bind]
    by_cases hw : Waited target s c
    · obtain ⟨hmatch, hzombie⟩ := (waited_iff hc).mp hw
      rw [if_pos hmatch, if_pos hzombie, List.find?_cons_of_pos (by simpa using hw)]
      exact ⟨found, rfl⟩
    rw [List.find?_cons_of_neg (by simpa using hw)]
    split
    next hmatch =>
      rw [if_neg fun hzombie => hw ((waited_iff hc).mpr ⟨hmatch, hzombie⟩)]
      exact ih true hrest
    · exact ih found hrest

theorem forM_load (hl : ∀ c ∈ l, ∃ cr, s c = some cr) :
    l.forM (fun child => do
      let _ ← load child s
      (.ok () : Outcome Unit)) = .ok () := by
  induction l with
  | nil => rfl
  | cons c rest ih =>
    obtain ⟨cr, hc⟩ := hl c mem_cons_self
    rw [List.forM, load_some hc, ok_bind, ok_bind]
    exact ih fun c' hc' => hl c' (mem_cons_of_mem _ hc')

theorem Inv.visitOwner (h : Inv s) (hp : s p = some pr) : visitOwner p s = .ok () := by
  have howner : ∃ q qr, sharedVmOwner p s = .ok q ∧ s q = some qr := by
    rw [sharedVmOwner, load_some hp, ok_bind]
    split
    · cases hparent : pr.parent with
      | none => exact ⟨p, pr, rfl, hp⟩
      | some q =>
        obtain ⟨qr, hq, -⟩ := h.linked p pr q hp hparent
        exact ⟨q, qr, rfl, hq⟩
    · exact ⟨p, pr, rfl, hp⟩
  obtain ⟨q, qr, howner, hq⟩ := howner
  rw [Tree.visitOwner, howner, ok_bind, load_some hq, ok_bind]
  exact forM_load (h.loads hq)

/-! ## The threads that are reaped -/

theorem Reapable.ne (h : Reapable s c) (hp : s p = some pr) (hruns : pr.zombie = false) : c ≠ p := by
  rintro rfl
  cases hruns.symm.trans ((reapable_iff hp).mp h).2

theorem reapLoop_cons (hc : s c = some cr) (hp : s p = some pr) (hruns : pr.zombie = false)
    (hreap : Reapable s c) : c ≠ p ∧ reapLoop p (c :: l) s = reapLoop p l (freed p pr c s) := by
  obtain ⟨hshared, hzombie⟩ := (reapable_iff hc).mp hreap
  have hne := hreap.ne hp hruns
  refine ⟨hne, ?_⟩
  rw [reapLoop, load_some hc, ok_bind, if_neg (by simp [hshared, hzombie]),
    reap_eq hc hp hne, ok_bind]

theorem reapLoop_skip (hc : s c = some cr) (hreap : ¬Reapable s c) :
    reapLoop p (c :: l) s = reapLoop p l s := by
  rw [reapable_iff hc, not_and_or, Bool.not_eq_true, Bool.not_eq_true] at hreap
  rw [reapLoop, load_some hc, ok_bind, if_pos]
  rcases hreap with h | h <;> simp [h]

theorem reapLoop_inv (h : Inv s) (hp : s p = some pr) (hruns : pr.zombie = false)
    (hl : l.Nodup) (hsub : l ⊆ pr.children) (hnone : ∀ c ∈ l, Reapable s c → Childless s c) :
    ∃ s' pr', reapLoop p l s = .ok s' ∧ Inv s' ∧ s' p = some pr' := by
  induction l generalizing s pr with
  | nil => exact ⟨s, pr, rfl, h, hp⟩
  | cons c rest ih =>
    obtain ⟨hcrest, hrest⟩ := nodup_cons.mp hl
    have hmem : c ∈ pr.children := hsub mem_cons_self
    obtain ⟨cr, hc⟩ := h.loads hp c hmem
    have hsub' : rest ⊆ pr.children := fun k hk => hsub (mem_cons_of_mem _ hk)
    have hnone' : ∀ k ∈ rest, Reapable s k → Childless s k :=
      fun k hk => hnone k (mem_cons_of_mem _ hk)
    by_cases hreap : Reapable s c
    · obtain ⟨hne, heq⟩ := reapLoop_cons (l := rest) hc hp hruns hreap
      have hempty := childless_iff.mp (hnone c mem_cons_self hreap)
      rw [heq]
      refine ih (h.freed hp hne hmem hempty) (freed_parent hne) hruns hrest ?_ ?_
      · intro k hk
        have hkc : k ≠ c := fun he => hcrest (he ▸ hk)
        exact (mem_erase_of_ne hkc).mpr (hsub' hk)
      · intro k hk hkreap
        have hkc : k ≠ c := fun he => hcrest (he ▸ hk)
        have hkp : k ≠ p := hkreap.ne (freed_parent hne) hruns
        rw [Reapable, freed_of_ne hkc hkp] at hkreap
        rw [Childless, freed_of_ne hkc hkp]
        exact hnone' k hk hkreap
    · rw [reapLoop_skip hc hreap]
      exact ih h hp hruns hrest hsub' hnone'

/-- The loop makes an orphan of each child of a thread that it frees. What carries the induction is
that the parent is still to be freed or has forgotten the child. -/
theorem reapLoop_orphan (hp : s p = some pr) (hruns : pr.zombie = false)
    (hparent : par s d = some c) (hc : c ∈ l ∧ Reapable s c ∨ d ∉ kids s c) (hd : d ∉ l)
    (hrun : reapLoop p l s = .ok s') : Orphan d c s' ∧ ∃ pr', s' p = some pr' := by
  induction l generalizing s pr with
  | nil =>
    obtain rfl := Except.ok.inj hrun
    exact ⟨orphan_iff.mpr ⟨hparent, hc.resolve_left (by simp)⟩, pr, hp⟩
  | cons k rest ih =>
    obtain ⟨hdk, hdrest⟩ := ne_and_not_mem_of_not_mem_cons hd
    obtain ⟨kr, hload, -⟩ := bind_eq_ok.mp hrun
    have hk := load_eq_ok hload
    by_cases hkreap : Reapable s k
    · obtain ⟨hne, heq⟩ := reapLoop_cons (l := rest) hk hp hruns hkreap
      refine ih (freed_parent hne) hruns ?_ ?_ hdrest (heq.symm.trans hrun)
      · rw [par_freed hp, update_of_ne hdk, hparent]
      by_cases hck : c = k
      · exact Or.inr (hck ▸ kids_freed ▸ by simp)
      refine hc.imp (fun h => ⟨mem_of_ne_of_mem hck h.1, ?_⟩) fun h => ?_
      · rw [Reapable, freed_of_ne hck (h.2.ne hp hruns)]
        exact h.2
      · exact fun hmem => h (kids_freed_subset hp hck hmem)
    · refine ih hp hruns hparent (hc.imp_left fun h => ⟨mem_of_ne_of_mem ?_ h.1, h.2⟩) hdrest
        ((reapLoop_skip hk hkreap).symm.trans hrun)
      rintro rfl
      exact hkreap h.2

/-! ## Calls -/

/-- A process with children has one that is not in the list of its own parent. -/
theorem Inv.grandchild (h : Inv s) (hp : s p = some pr) (hne : c ≠ p) (hmem : c ∈ pr.children)
    (hchildren : ¬Childless s c) : ∃ d, par s d = some c ∧ d ∉ pr.children ∧ d ≠ c := by
  rw [childless_iff] at hchildren
  obtain ⟨d, hd⟩ := exists_mem_of_ne_nil _ hchildren
  have hparent := h.par_eq hd
  have hout : d ∉ pr.children := by
    intro hdp
    rw [← kids_some hp] at hdp
    exact hne (mem_unique hparent (h.par_eq hdp))
  refine ⟨d, hparent, hout, ?_⟩
  rintro rfl
  exact hout hmem

/-- What is to be proved of a call. -/
def Spec (c : Call) (s : State) : Prop :=
  (Sound c s → ∃ s', call c s = .ok s' ∧ Inv s') ∧ (Keeps c s → Sound c s)

theorem Inv.newChild (h : Inv s) (hp : s p = some pr) (vmShared room ready : Bool) (child : ℕ)
    (pid : ℤ) : ∃ r s', newChild vmShared room ready p child pid s = .ok (r, s') ∧ Inv s' := by
  rcases newChild_cases hp with ⟨r, hrun⟩ | ⟨hchild, r, hrun⟩
  · exact ⟨r, s, hrun, h⟩
  · exact ⟨r, _, hrun, h.adopted hp hchild⟩

theorem Orphan.newChild {vmShared room ready : Bool} {pid r : ℤ} (h : Orphan d c s)
    (hp : s p = some pr) (hrun : newChild vmShared room ready p child pid s = .ok (r, s')) :
    Orphan d c s' := by
  rcases newChild_cases hp with ⟨r', hrun'⟩ | ⟨hchild, r', hrun'⟩
  · obtain ⟨-, rfl⟩ := ok_mk_inj (hrun'.symm.trans hrun)
    exact h
  · obtain ⟨-, rfl⟩ := ok_mk_inj (hrun'.symm.trans hrun)
    exact h.adopted hp hchild

theorem Inv.spec_clone (h : Inv s) (hp : s p = some pr) (hruns : pr.zombie = false)
    (thread shareVm room ready : Bool) (child : ℕ) (pid : ℤ) :
    Spec (.clone thread shareVm room ready p child pid) s := by
  cases thread with
  | false =>
    obtain ⟨r, s', hrun, hinv⟩ := h.newChild hp shareVm room ready child pid
    refine ⟨fun _ => ⟨s', ?_, hinv⟩, fun _ => nofun⟩
    exact congrArg (Prod.snd <$> ·) hrun
  | true =>
    have hreapAll : reapZombieThreads p s = reapLoop p pr.children s := by
      rw [reapZombieThreads, load_some hp, ok_bind]
    constructor
    · intro hsound
      obtain ⟨s1, pr1, hloop, hinv1, hp1⟩ :=
        reapLoop_inv h hp hruns (h.nodup hp) (List.Subset.refl _) (hsound rfl pr hp)
      obtain ⟨r, s', hrun, hinv⟩ := hinv1.newChild hp1 shareVm room ready child pid
      refine ⟨s', ?_, hinv⟩
      rw [call, sysClone, if_pos rfl, hreapAll, hloop, ok_bind]
      exact congrArg (Prod.snd <$> ·) hrun
    · rintro ⟨s', hrun, hlinked⟩ - pr' hp' c hmem hreap
      obtain rfl := mem_unique hp hp'
      by_contra hchildren
      obtain ⟨d, hparent, hout, -⟩ := h.grandchild hp (hreap.ne hp hruns) hmem hchildren
      obtain ⟨x, hx, rfl⟩ := map_eq_ok.mp hrun
      obtain ⟨s1, hloop, hnew⟩ := bind_eq_ok.mp hx
      obtain ⟨horphan, pr1, hp1⟩ := reapLoop_orphan hp hruns hparent
        (Or.inl ⟨hmem, hreap⟩) hout (hreapAll.symm.trans hloop)
      exact (horphan.newChild hp1 hnew).not_linked hlinked

theorem Inv.spec_wait4 (h : Inv s) (hp : s p = some pr) (hruns : pr.zombie = false)
    (copied : Bool) (target : ℤ) : Spec (.wait4 copied p target) s := by
  obtain ⟨found, hfind⟩ := findZombie_spec target false (h.loads hp)
  have hcall : call (.wait4 copied p target) s = Prod.snd <$> sysWait4 copied p target s := rfl
  rw [sysWait4, load_some hp, ok_bind, hfind, ok_bind] at hcall
  cases hat : pr.children.find? (fun c => Waited target s c) with
  | none =>
    rw [hat] at hcall
    have hsame : call (.wait4 copied p target) s = .ok s := by
      cases found with
      | false | true => exact hcall
    refine ⟨fun _ => ⟨s, hsame, h⟩, fun _ _ pr' hp' c hc => ?_⟩
    obtain rfl := mem_unique hp hp'
    cases hat.symm.trans hc
  | some c =>
    rw [hat] at hcall
    dsimp only at hcall
    have hmem : c ∈ pr.children := mem_of_find?_eq_some hat
    have hw : Waited target s c := by simpa using List.find?_some hat
    obtain ⟨cr, hc⟩ := h.loads hp c hmem
    have hne : c ≠ p := by
      rintro rfl
      cases hruns.symm.trans ((waited_iff hp).mp hw).2
    cases copied with
    | false => exact ⟨fun _ => ⟨s, hcall, h⟩, fun _ => nofun⟩
    | true =>
      rw [if_neg (by decide), load_some hc, ok_bind, reap_eq hc hp hne, ok_bind] at hcall
      constructor
      · intro hsound
        have hempty := childless_iff.mp (hsound rfl pr hp c hat)
        exact ⟨_, hcall, h.freed hp hne hmem hempty⟩
      · rintro ⟨s', hrun, hlinked⟩ - pr' hp' c' hc'
        obtain rfl := mem_unique hp hp'
        obtain rfl := mem_unique hat hc'
        by_contra hchildren
        obtain ⟨d, hparent, -, hdc⟩ := h.grandchild hp hne hmem hchildren
        obtain rfl := Except.ok.inj (hcall.symm.trans hrun)
        exact (orphan_freed hp hdc hparent).not_linked hlinked

theorem Inv.spec (h : Inv s) (c : Call) (hruns : Runs c.caller s) : Spec c s := by
  obtain ⟨pr, hp, hzombie⟩ := runs_iff.mp hruns
  -- the other calls free nothing
  have hspec : ∀ s', Sound c s → call c s = .ok s' → Inv s' → Spec c s :=
    fun s' hsound hrun hinv => ⟨fun _ => ⟨s', hrun, hinv⟩, fun _ => hsound⟩
  cases c with
  | fork room ready p child pid =>
    change s p = some pr at hp
    obtain ⟨r, s', hrun, hinv⟩ := h.newChild hp false room ready child pid
    refine hspec s' trivial ?_ hinv
    rw [call, sysFork, hrun]
    rfl
  | clone thread shareVm room ready p child pid =>
    exact h.spec_clone hp hzombie thread shareVm room ready child pid
  | exit p =>
    obtain ⟨s', hrun, hinv⟩ := h.sysExit hp
    exact hspec s' trivial hrun hinv
  | kill p pid sig =>
    change s p = some pr at hp
    obtain ⟨r, s', hrun, hinv⟩ := h.sysKill hp pid sig
    refine hspec s' trivial ?_ hinv
    rw [call, hrun]
    rfl
  | wait4 copied p target => exact h.spec_wait4 hp hzombie copied target
  | owner p =>
    change s p = some pr at hp
    refine hspec s trivial ?_ h
    rw [call, h.visitOwner hp, ok_bind]

/-! ## Runs -/

theorem Run.inv (h : Run Sound s) : Inv s := by
  induction h with
  | boot => exact ⟨nofun, nofun⟩
  | start p pid _ hp ih => exact ih.same (par_none hp).symm (kids_none hp).symm
  | wake p pr _ hp ih => exact ih.same (par_some hp).symm (kids_some hp).symm
  | @call s s' c _ hruns hok hrun ih =>
    obtain ⟨s1, hrun1, hinv⟩ := (ih.spec c hruns).1 hok
    obtain rfl := Except.ok.inj (hrun1.symm.trans hrun)
    exact hinv

/-- The calls of a list, each by a process that can run. -/
def calls : List Call → State → Outcome State
  | [], s => .ok s
  | c :: rest, s =>
    if Runs c.caller s then do
      let s ← call c s
      calls rest s
    else .error .wild

theorem Run.calls {Ok : Call → State → Prop} {l : List Call} (h : Run Ok s)
    (hok : ∀ c ∈ l, ∀ s, Ok c s) (hrun : Tree.calls l s = .ok s') : Run Ok s' := by
  induction l generalizing s with
  | nil =>
    obtain rfl := Except.ok.inj hrun
    exact h
  | cons c rest ih =>
    rw [Tree.calls] at hrun
    split at hrun
    next hruns =>
      obtain ⟨s1, hstep, hrest⟩ := bind_eq_ok.mp hrun
      exact ih (h.call c hruns (hok c mem_cons_self s) hstep)
        (fun c' hc' => hok c' (mem_cons_of_mem _ hc')) hrest
    · cases hrun

def first : State := store 0 ⟨1, none, [], false, false⟩ fun _ => none

theorem run_first (Ok : Call → State → Prop) : Run Ok first := Run.boot.start 0 1 rfl

/-- In the runs in which no process is freed that has children, each parent is there and knows its
child. The next call reads no freed process and keeps it so exactly if it frees no process that
has children. -/
theorem process_tree_iff (h : Run Sound s) :
    Linked s ∧ ∀ c : Call, Runs c.caller s → (Keeps c s ↔ Sound c s) := by
  refine ⟨h.inv.linked, fun c hruns => ?_⟩
  obtain ⟨hsound, hkeeps⟩ := h.inv.spec c hruns
  refine ⟨hkeeps, fun hs => ?_⟩
  obtain ⟨s', hrun, hinv⟩ := hsound hs
  exact ⟨s', hrun, hinv.linked⟩

/-- The first process waits for a child that has ended and has no children. -/
theorem process_tree_first : ∃ s, Run Sound s ∧ Runs 0 s ∧ Waited (-1) s 1 ∧
    Keeps (.wait4 true 0 (-1)) s := by
  have hchecks : (calls [.fork true true 0 1 2, .exit 1] first).checks (fun s =>
      decide (s 0 = some ⟨1, none, [1], false, false⟩) &&
        decide (s 1 = some ⟨2, some 0, [], true, false⟩)) = true := by decide +kernel
  obtain ⟨s, hrun, hs⟩ := exists_of_checks hchecks
  rw [Bool.and_eq_true, decide_eq_true_eq, decide_eq_true_eq] at hs
  obtain ⟨hfirst, hchild⟩ := hs
  have h : Run Sound s := by
    refine (run_first Sound).calls (fun c hc s => ?_) hrun
    simp only [mem_cons, not_mem_nil, or_false] at hc
    rcases hc with rfl | rfl <;> trivial
  have hruns : Runs 0 s := runs_iff.mpr ⟨_, hfirst, rfl⟩
  refine ⟨s, h, hruns, (waited_iff hchild).mpr ⟨Or.inl rfl, rfl⟩,
    ((process_tree_iff h).2 (.wait4 true 0 (-1)) hruns).mpr fun _ pr hp c hc => ?_⟩
  obtain rfl := mem_unique hfirst hp
  obtain rfl := mem_singleton.mp (mem_of_find?_eq_some hc)
  exact childless_iff.mpr (kids_some hchild)

/-- A child ends whose own child runs on. Once `sys_wait4` has freed it, the exit of the grandchild
reads the freed parent. -/
theorem reaped_parent_dangles : ∃ s, Run (fun _ _ => True) s ∧ ¬Linked s ∧
    ∃ p, Runs p s ∧ sysExit p s = .error .wild := by
  have hchecks : (calls [.fork true true 0 1 2, .fork true true 1 2 3, .exit 1,
      .wait4 true 0 (-1)] first).checks (fun s => decide (s 1 = none) &&
        decide (s 2 = some ⟨3, some 1, [], false, false⟩)) = true := by decide +kernel
  obtain ⟨s, hrun, hs⟩ := exists_of_checks hchecks
  rw [Bool.and_eq_true, decide_eq_true_eq, decide_eq_true_eq] at hs
  obtain ⟨hfreed, hchild⟩ := hs
  refine ⟨s, (run_first _).calls (fun _ _ _ => trivial) hrun, fun hlinked => ?_, 2,
    runs_iff.mpr ⟨_, hchild, rfl⟩, ?_⟩
  · obtain ⟨qr, hq, -⟩ := hlinked 2 _ 1 hchild rfl
    cases hfreed.symm.trans hq
  · have hload : load 1 (store 2 ⟨3, some 1, [], true, false⟩ s) = .error .wild := by
      rw [load, store_of_ne (by decide), hfreed]
    rw [sysExit, load_some hchild, ok_bind]
    dsimp only
    rw [wakeParent, hload]
    rfl

end NoobKernel.Tree
