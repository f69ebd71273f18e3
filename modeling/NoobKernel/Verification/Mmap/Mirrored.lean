import NoobKernel.Verification.Mmap.Group

/-! # The page tables of a process and its threads

A process without threads is a group of one table. -/

namespace NoobKernel.Vm

open Library Library.Radix List

/-- A well-formed page table that maps no page twice and none that is reserved. -/
structure Space (m : Memory) (root : ℕ) : Prop where
  spaces : Spaces m (· = root)
  distinct : ∀ va va', IsMapped root va m → IsMapped root va' m →
    frameOf root va m = frameOf root va' m → vpn va = vpn va'
  clean : ∀ va, IsMapped root va m → pteOf root va m &&& pteMmapReserved = 0

/-- Addresses that select the entry of a trap page. -/
def AtTrap (va : ℕ) : Prop := vpn va = vpn trampoline ∨ vpn va = vpn trapframe

/-- The page tables of a group: they map the same pages, none of them twice and none that is
reserved. Each has trap pages of its own. -/
structure Mirrored (m : Memory) (tables : List ℕ) : Prop where
  nodup : tables.Nodup
  spaces : Spaces m (· ∈ tables)
  valid : ∀ r ∈ tables, ∀ r' ∈ tables, ∀ va, IsMapped r va m → IsMapped r' va m
  agree : ∀ r ∈ tables, ∀ r' ∈ tables, ∀ va, ¬ AtTrap va → IsMapped r va m →
    pteOf r' va m = pteOf r va m
  distinct : ∀ r ∈ tables, ∀ r' ∈ tables, ∀ va va', IsMapped r va m → IsMapped r' va' m →
    frameOf r va m = frameOf r' va' m → vpn va = vpn va'
  clean : ∀ r ∈ tables, ∀ va, IsMapped r va m → pteOf r va m &&& pteMmapReserved = 0

variable {m m' m'' : Memory} {tables : List ℕ} {root own r va pa perm n : ℕ} {P Q : ℕ → Prop}
  {fresh : Bool}

theorem Mirrored.space (h : Mirrored m tables) (hr : r ∈ tables) : Space m r :=
  ⟨h.spaces.mono fun _ he => he ▸ hr, h.distinct r hr r hr, h.clean r hr⟩

theorem Space.mirrored (h : Space m root) : Mirrored m [root] := by
  have hmem : ∀ r ∈ [root], r = root := fun r hr => mem_singleton.mp hr
  refine ⟨by simp, h.spaces.mono hmem, ?_, ?_, ?_, ?_⟩
  all_goals simp only [mem_singleton, forall_eq, implies_true]
  · exact fun _ hv => hv
  · exact h.distinct
  · exact h.clean

theorem Mirrored.of_same (h : Mirrored m tables) (hspaces : Spaces m' (· ∈ tables))
    (hpte : ∀ r ∈ tables, ∀ va, pteOf r va m' = pteOf r va m) : Mirrored m' tables := by
  refine ⟨h.nodup, hspaces, ?_, ?_, ?_, ?_⟩
  · intro r hr r' hr' va
    rw [IsMapped, IsMapped, hpte r hr, hpte r' hr']
    exact h.valid r hr r' hr' va
  · intro r hr r' hr' va
    rw [IsMapped, hpte r hr, hpte r' hr']
    exact h.agree r hr r' hr' va
  · intro r hr r' hr' va va'
    rw [IsMapped, IsMapped, frameOf, frameOf, hpte r hr, hpte r' hr']
    exact h.distinct r hr r' hr' va va'
  · intro r hr va
    rw [IsMapped, hpte r hr]
    exact h.clean r hr va

theorem Mirrored.untouched (h : Mirrored m tables) (hsame : Untouched m (· ∈ tables) m') :
    Mirrored m' tables :=
  h.of_same (hsame.spaces h.spaces) fun _ hr va => hsame.pteOf_eq hr va

theorem Space.untouched (h : Space m root) (hsame : Untouched m (· = root) m') : Space m' root := by
  have hspaces : Spaces m' (· ∈ [root]) :=
    (hsame.spaces h.spaces).mono fun r hr => mem_singleton.mp hr
  refine (h.mirrored.of_same hspaces fun r hr va => ?_).space mem_cons_self
  exact hsame.pteOf_eq (mem_singleton.mp hr) va

/-! ## What a step does to the tables -/

/-- Only entries in `P` have changed; with `fresh` none that was valid, and no page has been given
back. -/
structure Changes (fresh : Bool) (tables : List ℕ) (P : ℕ → Prop) (m m' : Memory) : Prop where
  mirrored : Mirrored m' tables
  same : ∀ r ∈ tables, ∀ va, ¬ P va ∨ fresh = true ∧ IsMapped r va m →
    pteOf r va m' = pteOf r va m
  used : fresh = true → ∀ a, m.used a = true → m'.used a = true

abbrev Adds : List ℕ → (ℕ → Prop) → Memory → Memory → Prop := Changes true

namespace Changes

theorem refl (h : Mirrored m tables) : Changes fresh tables P m m :=
  ⟨h, fun _ _ _ _ => rfl, fun _ _ hu => hu⟩

theorem mono (h : Changes fresh tables P m m') (hPQ : ∀ va, P va → Q va) :
    Changes fresh tables Q m m' :=
  ⟨h.mirrored, fun r hr va hva => h.same r hr va (hva.imp_left fun hq hp => hq (hPQ va hp)), h.used⟩

theorem trans (h : Changes fresh tables P m m') (h' : Changes fresh tables P m' m'') :
    Changes fresh tables P m m'' := by
  refine ⟨h'.mirrored, fun r hr va hva => ?_, fun hf a hu => h'.used hf a (h.used hf a hu)⟩
  have hsame := h.same r hr va hva
  rw [h'.same r hr va (hva.imp_right fun hv => ⟨hv.1, by rw [IsMapped, hsame]; exact hv.2⟩), hsame]

theorem outside (h : Changes fresh tables P m m') (hr : r ∈ tables) (hva : ¬ P va) :
    pteOf r va m' = pteOf r va m :=
  h.same r hr va (Or.inl hva)

theorem valid (h : Adds tables P m m') (hr : r ∈ tables) (hv : IsMapped r va m) :
    pteOf r va m' = pteOf r va m :=
  h.same r hr va (Or.inr ⟨rfl, hv⟩)

theorem isMapped (h : Adds tables P m m') (hr : r ∈ tables) (hv : IsMapped r va m) :
    IsMapped r va m' := by
  rwa [IsMapped, h.valid hr hv]

theorem of_adds (h : Adds tables P m m') : Changes fresh tables P m m' :=
  ⟨h.mirrored, fun r hr va hva => h.same r hr va (hva.imp_right fun hv => ⟨rfl, hv.2⟩),
    fun _ => h.used rfl⟩

theorem of_untouched (h : Mirrored m tables) (hsame : Untouched m (· ∈ tables) m')
    (hused : ∀ a, m.used a = true → m'.used a = true) : Changes fresh tables P m m' :=
  ⟨h.untouched hsame, fun _ hr va _ => hsame.pteOf_eq hr va, fun _ => hused⟩

end Changes

/-- Only entries in `P` have been cleared, and only their pages given back. -/
structure Drops (tables : List ℕ) (P : ℕ → Prop) (m m' : Memory) : Prop where
  mirrored : Mirrored m' tables
  same : ∀ r ∈ tables, ∀ va, ¬ P va → pteOf r va m' = pteOf r va m
  kept : ∀ r ∈ tables, ∀ va, pteOf r va m' = pteOf r va m ∨ pteOf r va m' = 0
  used : ∀ a, m.used a = true → m'.used a = true ∨
    ∃ r ∈ tables, ∃ va, P va ∧ IsMapped r va m ∧ frameOf r va m = a

namespace Drops

theorem refl (h : Mirrored m tables) : Drops tables P m m :=
  ⟨h, fun _ _ _ _ => rfl, fun _ _ _ => Or.inl rfl, fun _ hu => Or.inl hu⟩

variable (h : Drops tables P m m')

include h

theorem mono (hPQ : ∀ va, P va → Q va) : Drops tables Q m m' := by
  refine ⟨h.mirrored, fun r hr va hva => h.same r hr va fun hp => hva (hPQ va hp), h.kept, ?_⟩
  exact fun a hu => (h.used a hu).imp_right fun ⟨r, hr, va, hp, hv⟩ => ⟨r, hr, va, hPQ va hp, hv⟩

theorem of_mapped (hr : r ∈ tables) (hv : IsMapped r va m') :
    pteOf r va m' = pteOf r va m :=
  (h.kept r hr va).resolve_right fun hzero => notMapped_zero hzero hv

theorem trans (h' : Drops tables P m' m'') : Drops tables P m m'' := by
  refine ⟨h'.mirrored, fun r hr va hva => (h'.same r hr va hva).trans (h.same r hr va hva), ?_, ?_⟩
  · intro r hr va
    rcases h'.kept r hr va with hsame | hzero
    · rw [hsame]
      exact h.kept r hr va
    · exact Or.inr hzero
  · intro a hu
    rcases h.used a hu with hu' | hold
    · rcases h'.used a hu' with hu'' | ⟨r, hr, va, hp, hv, hframe⟩
      · exact Or.inl hu''
      have hsame := h.of_mapped hr hv
      rw [IsMapped, hsame] at hv
      rw [frameOf, hsame] at hframe
      exact Or.inr ⟨r, hr, va, hp, hv, hframe⟩
    · exact Or.inr hold

theorem changes : Changes false tables P m m' :=
  ⟨h.mirrored, fun r hr va hva => h.same r hr va (hva.resolve_right fun hv => by cases hv.1),
    fun hf => by cases hf⟩

end Drops

/-! ## One page is written -/

section

variable (h : Mirrored m tables) (hw : Written (· ∈ tables) tables va m m')

include h hw

theorem Mirrored.written
    (hvalid : ∀ r ∈ tables, ∀ r' ∈ tables, IsMapped r va m' → IsMapped r' va m')
    (hagree : ¬ AtTrap va → ∀ r ∈ tables, ∀ r' ∈ tables, pteOf r' va m' = pteOf r va m')
    (hnew : ∀ r ∈ tables, IsMapped r va m' → pteOf r va m' &&& pteMmapReserved = 0 ∧
      ∀ r' ∈ tables, ∀ va', IsMapped r' va' m → vpn va' ≠ vpn va →
        frameOf r va m' ≠ frameOf r' va' m) : Mirrored m' tables := by
  have hsame : ∀ r ∈ tables, ∀ va', vpn va' ≠ vpn va → pteOf r va' m' = pteOf r va' m :=
    fun r hr va' hne => hw.same r va' hr (Or.inr hne)
  -- the written page against another one
  have hdiff : ∀ r ∈ tables, ∀ r' ∈ tables, ∀ va1 va2, vpn va1 = vpn va → vpn va2 ≠ vpn va →
      IsMapped r va1 m' → IsMapped r' va2 m' → frameOf r va1 m' ≠ frameOf r' va2 m' := by
    intro r hr r' hr' va1 va2 h1 h2 hv1 hv2
    rw [isMapped_congr h1] at hv1
    rw [IsMapped, hsame r' hr' va2 h2] at hv2
    rw [frameOf_congr h1, show frameOf r' va2 m' = frameOf r' va2 m by
      rw [frameOf, hsame r' hr' va2 h2, frameOf]]
    exact (hnew r hr hv1).2 r' hr' va2 hv2 h2
  refine ⟨h.nodup, hw.spaces, ?_, ?_, ?_, ?_⟩
  · intro r hr r' hr' va' hv
    by_cases hvpn : vpn va' = vpn va
    · rw [isMapped_congr hvpn] at hv ⊢
      exact hvalid r hr r' hr' hv
    · rw [IsMapped, hsame r hr va' hvpn] at hv
      rw [IsMapped, hsame r' hr' va' hvpn]
      exact h.valid r hr r' hr' va' hv
  · intro r hr r' hr' va' hnot hv
    by_cases hvpn : vpn va' = vpn va
    · rw [AtTrap, hvpn] at hnot
      rw [pteOf_congr hvpn, pteOf_congr hvpn]
      exact hagree hnot r hr r' hr'
    · rw [IsMapped, hsame r hr va' hvpn] at hv
      rw [hsame r hr va' hvpn, hsame r' hr' va' hvpn]
      exact h.agree r hr r' hr' va' hnot hv
  · intro r hr r' hr' va1 va2 hv1 hv2 heq
    by_cases h1 : vpn va1 = vpn va <;> by_cases h2 : vpn va2 = vpn va
    · rw [h1, h2]
    · exact absurd heq (hdiff r hr r' hr' va1 va2 h1 h2 hv1 hv2)
    · exact absurd heq.symm (hdiff r' hr' r hr va2 va1 h2 h1 hv2 hv1)
    · rw [IsMapped, hsame r hr _ h1] at hv1
      rw [IsMapped, hsame r' hr' _ h2] at hv2
      rw [frameOf, frameOf, hsame r hr _ h1, hsame r' hr' _ h2] at heq
      exact h.distinct r hr r' hr' va1 va2 hv1 hv2 heq
  · intro r hr va' hv
    by_cases hvpn : vpn va' = vpn va
    · rw [isMapped_congr hvpn] at hv
      rw [pteOf_congr hvpn]
      exact (hnew r hr hv).1
    · rw [IsMapped, hsame r hr va' hvpn] at hv
      rw [hsame r hr va' hvpn]
      exact h.clean r hr va' hv

theorem Mirrored.written_all {pte : ℕ} (hpte : ∀ r ∈ tables, pteOf r va m' = pte)
    (hnew : pte &&& pteV ≠ 0 → pte &&& pteMmapReserved = 0 ∧ ∀ r ∈ tables, ∀ va',
      IsMapped r va' m → vpn va' ≠ vpn va → pte2pa pte ≠ frameOf r va' m) : Mirrored m' tables := by
  refine h.written hw (fun r hr r' hr' => ?_) (fun _ r hr r' hr' => ?_) (fun r hr => ?_)
  · rw [IsMapped, IsMapped, hpte r hr, hpte r' hr']
    exact id
  · rw [hpte r hr, hpte r' hr']
  · rw [IsMapped, frameOf, hpte r hr]
    exact hnew

theorem Mirrored.grown (hsame : ∀ r ∈ tables, pteOf r va m' = pteOf r va m) :
    Changes fresh tables P m m' :=
  ⟨h.of_same hw.spaces fun _ hr => hw.pteOf_eq hsame hr, fun _ hr va _ => hw.pteOf_eq hsame hr va,
    fun _ => hw.used⟩

omit h in
theorem Written.changes (h : Mirrored m' tables)
    (hold : fresh = true → ∀ r ∈ tables, ¬ IsMapped r va m) :
    Changes fresh tables (AtPage va) m m' := by
  refine ⟨h, fun r hr va' hva' => hw.same r va' hr (Or.inr fun hvpn => ?_), fun _ => hw.used⟩
  rcases hva' with hnot | ⟨hfresh, hv⟩
  · exact hnot hvpn
  · rw [isMapped_congr hvpn] at hv
    exact hold hfresh r hr hv

end

theorem leafPte_clean (hpa : IsPage pa) (hperm : IsPerm perm) :
    leafPte pa perm &&& pteMmapReserved = 0 := by
  have hlt : leafFlags perm < 2 ^ 8 := by
    refine Nat.or_lt_two_pow (Nat.or_lt_two_pow (Nat.or_lt_two_pow hperm.lt (by decide))
      (by decide)) ?_
    split <;> decide
  rw [leafPte_eq, and_eq_flags (by decide), pteFlags_or hpa.holds (leafFlags_lt hperm.lt)]
  rw [show pteMmapReserved = 2 ^ 8 by decide, Nat.and_two_pow, Nat.testBit_lt_two_pow hlt]
  rfl

/-! ## Pages are added -/

/-- Pages enough for `n` more rounds of a loop over a group. -/
def Enough (tables : List ℕ) (n : ℕ) (m : Memory) : Prop :=
  tables.length = 1 ∨ Plenty (n * (1 + 2 * tables.length)) m

instance (tables : List ℕ) (n : ℕ) (m : Memory) : Decidable (Enough tables n m) :=
  inferInstanceAs (Decidable (_ ∨ _))

theorem Enough.mono {k : ℕ} (hle : k ≤ n) (h : Enough tables n m) : Enough tables k m :=
  h.imp_right (fun hp => hp.mono (Nat.mul_le_mul_right _ hle))

theorem Enough.of_free (h : Enough tables n m) (hans : m'.answers = m.answers)
    (hfree : ∀ a, m.used a = false → m'.used a = false) : Enough tables n m' :=
  h.imp_right (fun hp => hp.of_free hans hfree)

theorem forEach_one {α : Type} (f : α → Memory → ℤ × Memory) (x : α) (m : Memory) :
    forEach f [x] m = f x m := by
  rw [forEach, forEach]
  split
  · rfl
  · rename_i hzero
    exact Prod.ext (not_not.mp hzero).symm rfl

section

variable (h : Mirrored m tables)

include h

/-- A new page is taken and mapped in all tables, or given back when that fails. -/
theorem Mirrored.mapFresh (hperm : IsPerm perm) (va : ℕ) (henough : Enough tables (n + 1) m) :
    (∃ m', kzalloc m = (none, m') ∧ Adds tables (AtPage va) m m') ∨
      ∃ pa m1 res m', kzalloc m = (some pa, m1) ∧ sharedMapPage tables va pa perm m1 = (res, m') ∧
        (res ≠ 0 ∧ Adds tables (AtPage va) m m' ∧ Adds tables (AtPage va) m (kfree pa m') ∨
          res = 0 ∧ Adds tables (AtPage va) m m' ∧ IsFrame m' (· ∈ tables) pa ∧
            (∀ r ∈ tables, pteOf r va m' = leafPte pa perm) ∧ Enough tables n m') := by
  rcases h.spaces.kzalloc with ⟨m', hnone, hword, hused⟩ | ⟨pa, m1, hsome, halloc⟩
  · exact Or.inl ⟨m', hnone, .of_untouched h (h.spaces.untouched (fun a _ => by rw [hword])
      (fun a hu => by rwa [hused])) (fun a hu => by rwa [hused])⟩
  have hused : ∀ a, m.used a = true → m1.used a = true :=
    fun a hu => (halloc.used a).mpr (Or.inl hu)
  have hadds1 : Adds tables (AtPage va) m m1 :=
    .of_untouched h (h.spaces.untouched halloc.word hused) hused
  have h1 := hadds1.mirrored
  have hplenty : ∀ k, Plenty (k + (1 + 2 * tables.length)) m →
      Plenty (k + 2 * tables.length) m1 := by
    intro k hp
    obtain ⟨pa', m1', hkz, hp⟩ := (hp.mono (k := k + 2 * tables.length + 1) (by omega)).succ
    rw [hsome] at hkz
    obtain ⟨-, rfl⟩ := Prod.mk.inj hkz
    exact hp
  have hsucc : (n + 1) * (1 + 2 * tables.length) =
      n * (1 + 2 * tables.length) + (1 + 2 * tables.length) := Nat.succ_mul _ _
  rw [Enough, hsucc] at henough
  have hacts : Acts (· ∈ tables) va [pa] _ _ (fun pt => mappages pt va pa 1 perm) :=
    acts_mappages hperm
  obtain ⟨res, m', heq, hw, hres⟩ := reliable_mappages.group hacts (fun r hr => hr)
    h1.nodup h1.spaces (by simpa using halloc.frame)
    (fun r hr r' hr' hnot => not_not.mp (fun hv => h1.valid r' hr' r hr va hv hnot))
    (henough.imp_right (hplenty _))
  have hframe := hw.isFrame pa halloc.frame
  refine Or.inr ⟨pa, m1, res, m', hsome, heq, ?_⟩
  rcases hres with ⟨herr, hsame⟩ | ⟨rfl, hnew, hrest⟩
  · have hgrown : Adds tables (AtPage va) m m' := hadds1.trans (h1.grown hw hsame)
    have hfreed : Freed (· = pa) m' (kfree pa m') := Freed.kfree rfl
    have hkfree : Untouched m' (· ∈ tables) (kfree pa m') := by
      refine hfreed.untouched hw.spaces ?_ ?_
      · rintro r a hr ha rfl
        exact hframe.notOwns r hr ha
      · intro r va' hr hv
        rw [IsMapped, hw.pteOf_eq hsame hr] at hv
        rw [frameOf, hw.pteOf_eq hsame hr]
        exact halloc.frame_ne h.spaces hr hv
    refine Or.inl ⟨herr, hgrown, hgrown.mirrored.untouched hkfree, fun r hr va' hva' => ?_, ?_⟩
    · rw [hkfree.pteOf_eq hr, hgrown.same r hr va' hva']
    · intro _ a hu
      rw [hfreed.same a (ne_of_used hu halloc.free)]
      exact hgrown.used rfl a hu
  · have hpa := (leafPte_frame halloc.frame.isPage hperm.lt hperm.access).2.2
    have hmirrored : Mirrored m' tables := by
      refine h1.written_all hw (fun r hr => (hnew r hr).2) fun _ => ⟨?_, fun r hr va' hv _ => ?_⟩
      · exact leafPte_clean halloc.frame.isPage hperm
      · rw [hpa]
        exact (halloc.frame_ne h.spaces hr hv).symm
    exact Or.inr ⟨rfl, hadds1.trans (hw.changes hmirrored fun _ r hr => not_not.mpr (hnew r hr).1),
      hframe, fun r hr => (hnew r hr).2, henough.imp_right fun hp => hrest (hplenty _ hp)⟩

theorem Mirrored.reserve (hown : own ∈ tables) (hnot : ¬ IsMapped own va m)
    (henough : Enough tables (n + 1) m) :
    ∃ res m', sharedReservePage tables va m = (res, m') ∧ Adds tables (AtPage va) m m' ∧
      (res = 0 → Enough tables n m') := by
  have hsucc : (n + 1) * (1 + 2 * tables.length) =
      n * (1 + 2 * tables.length) + (1 + 2 * tables.length) := Nat.succ_mul _ _
  have hcount : tables.length = 1 ∨ Plenty (n * (1 + 2 * tables.length) + 2 * tables.length) m :=
    henough.imp_right (fun hp => hp.mono (by omega))
  obtain ⟨res, m', heq, hw, hres⟩ := reliable_reservePage.group acts_reservePage (fun r hr => hr)
    h.nodup h.spaces (by simp) (fun _ _ _ _ _ => trivial) hcount
  refine ⟨res, m', heq, ?_⟩
  rcases hres with ⟨herr, hsame⟩ | ⟨rfl, hnew, hrest⟩
  · exact ⟨h.grown hw hsame, fun hz => absurd hz herr⟩
  · have hmirrored := h.written_all hw (fun r hr => (hnew r hr).2) fun hv => absurd hv (by decide)
    exact ⟨hw.changes hmirrored fun _ r hr hv => hnot (h.valid r hr own hown va hv),
      fun _ => hcount.imp_right hrest⟩

theorem Mirrored.protect (hperm : IsPerm perm) (hown : own ∈ tables) (hv : IsMapped own va m)
    (henough : Enough tables n m) :
    ∃ res m', forEach (protectPage va perm) tables m = (res, m') ∧
      Changes false tables (AtPage va) m m' ∧ (res = 0 → Enough tables n m') := by
  have hcount : tables.length = 1 ∨ Plenty (n * (1 + 2 * tables.length) + 0 * tables.length) m := by
    rw [Nat.zero_mul, Nat.add_zero]
    exact henough
  obtain ⟨res, m', heq, hw, hres⟩ := reliable_protectPage.group (acts_protectPage hperm)
    (fun r hr => hr) h.nodup h.spaces (by simp)
    (fun r hr r' hr' hv' => h.valid r hr r' hr' va hv') hcount
  refine ⟨res, m', heq, ?_⟩
  have hold : ∀ r ∈ tables, IsMapped r va m := fun r hr => h.valid own hown r hr va hv
  rcases hres with ⟨herr, hsame⟩ | ⟨rfl, hnew, hrest⟩
  · exact ⟨h.grown hw hsame, fun hz => absurd hz herr⟩
  have hpage := fun r hr => (h.spaces.frame r va hr (hold r hr)).isPage
  have hpa : ∀ r ∈ tables, _ := fun r hr => leafPte_frame (hpage r hr) hperm.lt hperm.access
  refine ⟨hw.changes (h.written hw ?_ ?_ ?_) (fun hf => by cases hf),
    fun _ => hcount.imp_right hrest⟩
  · intro r _ r' hr' _
    rw [IsMapped, (hnew r' hr').2]
    exact (hpa r' hr').1
  · intro htrap r hr r' hr'
    rw [(hnew r' hr').2, (hnew r hr).2, h.agree r hr r' hr' va htrap (hold r hr)]
  · intro r hr _
    rw [frameOf, (hnew r hr).2]
    refine ⟨leafPte_clean (hpage r hr) hperm, fun r' hr' va' hv' hne hframe => hne ?_⟩
    rw [← frameOf, (hpa r hr).2.2] at hframe
    exact (h.distinct r hr r' hr' va va' (hold r hr) hv' hframe).symm

/-! ## Pages are dropped -/

theorem Mirrored.cleared (hw : Written (· ∈ tables) tables va m m')
    (hzero : ∀ r ∈ tables, pteOf r va m' = 0) : Drops tables (AtPage va) m m' := by
  have hmirrored := h.written_all hw hzero fun hv => absurd rfl hv
  refine ⟨hmirrored, fun r hr va' hva' => hw.same r va' hr (Or.inr hva'), fun r hr va' => ?_,
    fun a hu => Or.inl (hw.used a hu)⟩
  by_cases hvpn : vpn va' = vpn va
  · rw [pteOf_congr hvpn]
    exact Or.inr (hzero r hr)
  · exact Or.inl (hw.same r va' hr (Or.inr hvpn))

theorem Mirrored.dropped (hw : Written (· ∈ tables) tables va m m')
    (hzero : ∀ r ∈ tables, pteOf r va m' = 0) (hown : own ∈ tables) (hv : IsMapped own va m) :
    Drops tables (AtPage va) m (kfree (frameOf own va m) m') := by
  have hdrops := h.cleared hw hzero
  have hframe := hw.isFrame _ (h.spaces.frame own va hown hv)
  have hfreed : Freed (· = frameOf own va m) m' (kfree (frameOf own va m) m') := Freed.kfree rfl
  have huntouched : Untouched m' (· ∈ tables) (kfree (frameOf own va m) m') := by
    refine hfreed.untouched hw.spaces ?_ ?_
    · intro r a hr ha he
      exact hframe.notOwns r hr (he ▸ ha)
    -- the page was mapped here only
    · intro r va' hr hv' heq
      have hsame := hdrops.of_mapped hr hv'
      rw [frameOf, hsame] at heq
      have hold : IsMapped r va' m := by rwa [IsMapped, ← hsame]
      rw [isMapped_congr (h.distinct r hr own hown va' va hold hv heq)] at hv'
      exact notMapped_zero (hzero r hr) hv'
  refine ⟨hdrops.mirrored.untouched huntouched, ?_, ?_, ?_⟩
  · intro r hr va' hva'
    rw [pteOf_kfree]
    exact hdrops.same r hr va' hva'
  · intro r hr va'
    rw [pteOf_kfree]
    exact hdrops.kept r hr va'
  · intro a hu
    by_cases ha : a = frameOf own va m
    · exact Or.inr ⟨own, hown, va, rfl, hv, ha.symm⟩
    · exact Or.inl ((hfreed.same a ha).trans (hw.used a hu))

theorem Mirrored.unmap (hva : va < wordSize) :
    Written (· ∈ tables) tables va m (sharedUnmapPage tables va m) ∧
      (∀ r ∈ tables, pteOf r va (sharedUnmapPage tables va m) = 0) ∧
      Drops tables (AtPage va) m (sharedUnmapPage tables va m) := by
  obtain ⟨res, m', heq, hw, hok⟩ := forEach_group (acts_unmapPage hva) tables m
    (fun r hr => hr) h.nodup h.spaces (by simp)
  obtain ⟨rfl, rfl⟩ := Prod.mk.inj ((sharedUnmapPage_eq tables m).symm.trans heq)
  have hzero : ∀ r ∈ tables, pteOf r va (sharedUnmapPage tables va m) = 0 :=
    fun r hr => (hok rfl r hr).2
  exact ⟨hw, hzero, h.cleared hw hzero⟩

theorem Mirrored.unmapFree (hva : va < wordSize) (hown : own ∈ tables) (hv : IsMapped own va m) :
    Drops tables (AtPage va) m (kfree (frameOf own va m) (sharedUnmapPage tables va m)) ∧
      ∀ r ∈ tables, pteOf r va (kfree (frameOf own va m) (sharedUnmapPage tables va m)) = 0 := by
  obtain ⟨hw, hzero, -⟩ := h.unmap hva
  refine ⟨h.dropped hw hzero hown hv, fun r hr => ?_⟩
  rw [pteOf_kfree]
  exact hzero r hr

end

theorem unmapLoop_supply (pt k : ℕ) : ∀ va m,
    (unmapLoop pt k va m).answers = m.answers ∧ (unmapLoop pt k va m).used = m.used := by
  induction k with
  | zero => exact fun _ _ => ⟨rfl, rfl⟩
  | succ k ih =>
    intro va m
    unfold unmapLoop
    split
    · exact ih _ m
    · split
      · exact ih _ _
      · exact ih _ m

theorem sharedUnmapPage_supply (tables : List ℕ) (va : ℕ) : ∀ m,
    (sharedUnmapPage tables va m).answers = m.answers ∧
      (sharedUnmapPage tables va m).used = m.used := by
  induction tables with
  | nil => exact fun _ => ⟨rfl, rfl⟩
  | cons r tables ih =>
    intro m
    have hpage : (unmapPage va r m).answers = m.answers ∧ (unmapPage va r m).used = m.used := by
      have hloop := fun k a m' => unmapLoop_supply r k a m'
      unfold unmapPage unmappages
      split
      · exact hloop _ _ m
      · exact hloop _ _ _
    have hrest := ih (unmapPage va r m)
    exact ⟨hrest.1.trans hpage.1, hrest.2.trans hpage.2⟩

/-! ## Loops -/

/-- The addresses of the pages of a list. -/
def InPages (vas : List ℕ) (va : ℕ) : Prop := ∃ a ∈ vas, vpn va = vpn a

theorem inPages_cons {a : ℕ} {vas : List ℕ} :
    InPages (a :: vas) va ↔ vpn va = vpn a ∨ InPages vas va := by
  simp [InPages]

/-- What a round of a loop changes, with pages enough for `n` more rounds. -/
structure Round (fresh : Bool) (tables : List ℕ) (P : ℕ → Prop) (n : ℕ) (m : Memory)
    (x : ℤ × Memory) : Prop where
  changes : Changes fresh tables P m x.2
  enough : x.1 = 0 → Enough tables n x.2

theorem Changes.failed {r : ℤ} (h : Changes fresh tables P m m') (hr : r ≠ 0) :
    Round fresh tables P n m (r, m') :=
  ⟨h, fun hz => absurd hz hr⟩

theorem Round.forEach {f : ℕ → Memory → ℤ × Memory} (vas : List ℕ)
    (hf : ∀ a ∈ vas, ∀ m n, Mirrored m tables → Enough tables (n + 1) m →
      Round fresh tables (AtPage a) n m (f a m)) :
    ∀ m, Mirrored m tables → Enough tables vas.length m →
      Changes fresh tables (InPages vas) m (forEach f vas m).2 := by
  induction vas with
  | nil =>
    intro m h _
    exact Changes.refl h
  | cons a vas ih =>
    intro m h henough
    have hround := hf a mem_cons_self m vas.length h henough
    have hhead : Changes fresh tables (InPages (a :: vas)) m (f a m).2 :=
      hround.changes.mono (fun va hva => inPages_cons.mpr (Or.inl hva))
    rw [Vm.forEach]
    split
    · exact hhead
    rename_i hzero
    have htail := ih (fun b hb => hf b (mem_cons_of_mem a hb)) _ hhead.mirrored
      (hround.enough (not_not.mp hzero))
    exact hhead.trans (htail.mono (fun va hva => inPages_cons.mpr (Or.inr hva)))

/-- A loop that drops pages whose entries are of a kind `D` that zero is not. -/
theorem Drops.foldl {f : Memory → ℕ → Memory} {D : ℕ → ℕ → Prop} (hD : ∀ a, ¬ D a 0)
    (hown : own ∈ tables) (vas : List ℕ) (hf : ∀ a ∈ vas, ∀ m, Mirrored m tables →
      Drops tables (fun va => vpn va = vpn a ∧ D a (pteOf own va m)) m (f m a)) :
    ∀ m, Mirrored m tables →
      Drops tables (fun va => ∃ a ∈ vas, vpn va = vpn a ∧ D a (pteOf own va m)) m
        (vas.foldl f m) := by
  induction vas with
  | nil =>
    intro m h
    exact Drops.refl h
  | cons a vas ih =>
    intro m h
    have hhead := hf a mem_cons_self m h
    have htail := ih (fun b hb => hf b (mem_cons_of_mem a hb)) _ hhead.mirrored
    refine (hhead.mono ?_).trans (htail.mono ?_)
    · exact fun va hva => ⟨a, mem_cons_self, hva⟩
    · rintro va ⟨b, hb, hvpn, hkind⟩
      refine ⟨b, mem_cons_of_mem a hb, hvpn, ?_⟩
      rcases hhead.kept own hown va with hsame | hzero
      · rwa [hsame] at hkind
      · rw [hzero] at hkind
        exact absurd hkind (hD b)

/-! ## `walkaddr` -/

theorem Spaces.walkaddr_cases {roots : ℕ → Prop} (h : Spaces m roots) (hr : roots root) (va : ℕ) :
    walkaddr root va m = 0 ∨
      (walkaddr root va m ≠ 0 ∧ walkaddr root va m = frameOf root va m ∧
        va < vmEnd ∧ UserPte (pteOf root va m)) := by
  by_cases hva : va < vmEnd
  · rw [walkaddr_eq hva]
    by_cases huser : UserPte (pteOf root va m)
    · rw [if_pos huser]
      have hpage := (h.frame root va hr huser.1).isPage
      exact Or.inr ⟨hpage.ne_zero, rfl, hva, huser⟩
    · exact Or.inl (if_neg huser)
  · exact Or.inl (if_pos (not_lt.mp hva))

end NoobKernel.Vm
