import NoobKernel.Verification.Mmap.Group

/-! # Page tables of new processes -/

namespace NoobKernel.Vm

open Library Library.Radix

variable {m m' m1 : Memory} {roots : ℕ → Prop} {src dst parent child tp va : ℕ} {share : Bool}

def withRoot (roots : ℕ → Prop) (child : ℕ) (r : ℕ) : Prop := roots r ∨ r = child

/-- A new table is empty and apart from the others. -/
structure Created (m : Memory) (roots : ℕ → Prop) (child : ℕ) (m' : Memory) : Prop where
  spaces : Spaces m' (withRoot roots child)
  fresh : ¬ roots child
  empty : ∀ va, pteOf child va m' = 0
  same : ∀ r va, roots r → pteOf r va m' = pteOf r va m
  word : ∀ a, m.used a = true → m'.word a = m.word a
  used : ∀ a, m.used a = true → m'.used a = true
  isFrame : ∀ a, IsFrame m roots a → IsFrame m' (withRoot roots child) a

theorem Spaces.uvmcreate (h : Spaces m roots) (hc : uvmcreate m = (some child, m')) :
    Created m roots child m' := by
  obtain ⟨htable, hempty, hown⟩ := Table.create hc
  rcases h.kzalloc with ⟨m1, hnone, -⟩ | ⟨pa, m1, hsome, halloc⟩
  · rw [Vm.uvmcreate, pagetableCreate, hnone] at hc
    cases hc
  rw [Vm.uvmcreate, pagetableCreate, hsome] at hc
  cases hc
  have hchild := halloc.frame.notOwns
  have hused : ∀ a, m.used a = true → m'.used a = true := fun a hu => (halloc.used a).mpr (Or.inl hu)
  -- pages that were mapped before were in use, so none of them is the new table
  have hframe : ∀ a, IsFrame m roots a → IsFrame m' (withRoot roots child) a := by
    intro a ha
    refine ⟨ha.isPage, hused a ha.used, ?_⟩
    rintro r (hr | rfl)
    · rw [owns_congr (fun b hb => halloc.word b ((h.table r hr).pages b hb).2)]
      exact ha.notOwns r hr
    · exact fun hb => ne_of_used ha.used halloc.free (hown a hb)
  have hspaces : Spaces m' (withRoot roots child) := by
    refine ⟨?_, ?_, ?_, ?_⟩
    · rintro r (hr | rfl)
      · exact halloc.spaces.table r hr
      · exact htable
    · rintro r r' (hr | rfl) (hr' | rfl) hne a ha ha'
      · exact halloc.spaces.apart r r' hr hr' hne a ha ha'
      · exact hchild r hr (hown a ha' ▸ ha)
      · exact hchild r' hr' (hown a ha ▸ ha')
      · exact hne rfl
    · rintro r va (hr | rfl) hv
      · exact halloc.spaces.leaf r va hr hv
      · exact absurd hv (notMapped_zero (hempty va))
    · rintro r va (hr | rfl) hv
      · rw [IsMapped, halloc.same r va hr] at hv
        rw [frameOf, halloc.same r va hr]
        exact hframe _ (h.frame r va hr hv)
      · exact absurd hv (notMapped_zero (hempty va))
  exact ⟨hspaces, fun hr => hchild child hr Below.self, hempty, halloc.same, halloc.word, hused,
    hframe⟩

theorem Spaces.of_uvmcreate (hc : Vm.uvmcreate m = (some child, m')) :
    Spaces m' (· = child) ∧ (∀ va, pteOf child va m' = 0) ∧
      ∀ a, IsPage a → m.used a = true → IsFrame m' (· = child) a := by
  have hnone : Spaces m (fun _ => False) :=
    ⟨fun _ hf => hf.elim, fun _ _ hf => hf.elim, fun _ _ hf => hf.elim, fun _ _ hf => hf.elim⟩
  have hcreated := hnone.uvmcreate hc
  have hroots : withRoot (fun _ => False) child = (· = child) := by
    funext r
    simp [withRoot]
  rw [← hroots]
  exact ⟨hcreated.spaces, hcreated.empty,
    fun a hpage hused => hcreated.isFrame a ⟨hpage, hused, fun _ hf => hf.elim⟩⟩

theorem Spaces.ready (h : Spaces m roots) (hsrc : roots src) (hdst : roots dst) (hne : src ≠ dst)
    (hempty : ∀ va, pteOf dst va m = 0) : ReadyToCopy m src dst := by
  refine ⟨h.table src hsrc, fun va hv => h.leaf src va hsrc hv, ?_, h.table dst hdst, hempty,
    h.apart src dst hsrc hdst hne⟩
  intro va hv
  obtain ⟨-, hused, hnot⟩ := h.frame src va hsrc hv
  exact ⟨hused, hnot src hsrc, hnot dst hdst⟩

/-! ## The walks -/

/-- What a walk does with a leaf. -/
def childLeaf (share : Bool) (dst : ℕ) : ℕ → ℕ → Memory → ℤ × Memory :=
  if share then shareLeaf dst else copyLeaf dst

theorem childLeaf_action (share : Bool) (dst : ℕ) : LeafAction dst (childLeaf share dst) := by
  cases share with
  | false => exact copyLeaf_action dst
  | true => exact shareLeaf_action dst

section

variable (h : ReadyToCopy m src dst) (share : Bool)

include h

theorem childWalk_eq :
    childWalk share src dst m = onLeaves (childLeaf share dst) (leaves m 2 src 0) m := by
  rw [← (childLeaf_action share dst).walkTree_eq h]
  cases share with
  | false => simp [childWalk, childLeaf, uvmcopyTree, h.ne_zero]
  | true => simp [childWalk, childLeaf, uvmshareTree, h.ne_zero]

theorem childWalk_result :
    (childWalk share src dst m).1 = 0 ∨ (childWalk share src dst m).1 = -enomem := by
  rw [childWalk_eq h]
  exact forEach_result _ (fun x m1 => (childLeaf_action share dst).result x.1 x.2 m1) m

/-- A walk changes the new table only, also when it fails. -/
theorem childWalk_edited : Edited dst (fun _ => True) m (childWalk share src dst m).2 := by
  rw [childWalk_eq h]
  exact forEach_keep (fun x m1 h1 => (childLeaf_action share dst).edited x.1 x.2 m1 h1)
    (Edited.refl h.target)

end

/-- The entry of a page in the table of a child: that of the parent, or its flags with a page of
the child's own. -/
def IsChildPte (share : Bool) (m : Memory) (parent va pte : ℕ) : Prop :=
  (IsMapped parent va m → if share then pte = pteOf parent va m else
    ∃ page, IsPage page ∧ m.used page = false ∧
      pte = pa2pte page ||| pteFlags (pteOf parent va m)) ∧
  (¬ IsMapped parent va m → pte = 0)

theorem Spaces.childWalk (h : Spaces m roots) (hsrc : roots src) (hdst : roots dst)
    (hne : src ≠ dst) (hempty : ∀ va, pteOf dst va m = 0)
    (hr : childWalk share src dst m = (0, m')) :
    Spaces m' roots ∧ (∀ r va, roots r → r ≠ dst → pteOf r va m' = pteOf r va m) ∧
      (∀ va, IsUserPage va → IsChildPte share m src va (pteOf dst va m')) ∧
      (∀ a, m.used a = true → m'.used a = true) ∧
      (∀ a, IsFrame m roots a → IsFrame m' roots a) ∧
      (share = false → ∀ va va', IsUserPage va → IsUserPage va' → IsMapped dst va m' →
        IsMapped dst va' m' → frameOf dst va m' = frameOf dst va' m' → va = va') := by
  have hready := h.ready hsrc hdst hne hempty
  have hout : ∀ va, ¬ Walked (leaves m 2 src 0) va →
      Edited dst (Walked (leaves m 2 src 0)) m m' → pteOf dst va m' = 0 :=
    fun va hnot hedit => (hedit.same va hnot).trans (hempty va)
  cases share with
  | false =>
    simp only [Vm.childWalk, Bool.false_eq_true, if_false] at hr
    obtain ⟨frame, hcopied⟩ := uvmcopyTree_copied hready hr
    have hedit := hcopied.edited
    refine ⟨h.edit hdst hedit ?_, fun r va hr hne' => h.pteOf_other hdst hedit hr hne' va, ?_,
      hedit.used, fun a ha => h.isFrame_edit hdst hedit ha,
      fun _ va va' hva hva' => hcopied.frame_inj hready hva hva'⟩
    · intro va hwalked _
      have hcopy := hcopied.copies va hwalked
      obtain ⟨x, hx, -, hvpn⟩ := hwalked
      obtain ⟨-, -, hpte, hv⟩ := mem_leaves.mp hx
      have hsrcv : IsMapped src va m := by rwa [IsMapped, pteOf_congr hvpn, hpte]
      refine ⟨?_, ?_⟩
      · rw [IsLeaf, and_eq_flags (by decide), hcopy.flags, ← and_eq_flags (by decide)]
        exact h.leaf src va hsrc hsrcv
      · rw [hcopy.frameOf_eq]
        refine ⟨hcopy.isPage, hcopy.used, fun r hr' => ?_⟩
        by_cases hrd : r = dst
        · rw [hrd]
          exact hcopy.notOwns
        · rw [h.owns_other hdst hedit hr' hrd]
          exact (h.table r hr').notOwns hcopy.free
    · intro va hva
      refine ⟨fun hv => ?_, fun hv => ?_⟩
      · have hcopy := hcopied.copyOf hva hv
        exact ⟨_, hcopy.isPage, hcopy.free, hcopy.entry⟩
      · exact hout va (fun hw => hv ((walked_leaves_iff hva).mp hw)) hedit
  | true =>
    simp only [Vm.childWalk, if_true] at hr
    have hshared := uvmshareTree_shared hready hr
    have hedit := hshared.edited
    refine ⟨h.edit hdst hedit ?_, fun r va hr hne' => h.pteOf_other hdst hedit hr hne' va, ?_,
      hedit.used, fun a ha => h.isFrame_edit hdst hedit ha, fun hf => by cases hf⟩
    · intro va hwalked hv
      rw [IsMapped, hshared.entry va hwalked] at hv
      rw [frameOf, hshared.entry va hwalked]
      exact ⟨h.leaf src va hsrc hv, h.isFrame_edit hdst hedit (h.frame src va hsrc hv)⟩
    · intro va hva
      refine ⟨fun hv => ?_, fun hv => ?_⟩
      · exact hshared.entry va ((walked_leaves_iff hva).mpr hv)
      · exact hout va (fun hw => hv ((walked_leaves_iff hva).mp hw)) hedit

/-! ## The whole table -/

theorem Spaces.mapOne {pa perm : ℕ} (h : Spaces m roots) (hdst : roots dst)
    (hpa : IsFrame m roots pa) (hperm : IsPerm perm) (hr : mappages dst va pa 1 perm m = (0, m')) :
    Written roots [dst] va m m' ∧ pteOf dst va m' = leafPte pa perm := by
  obtain ⟨res, m1, heq, hw, hres⟩ := acts_mappages hperm dst m hdst h (by simpa using hpa)
  obtain ⟨rfl, rfl⟩ := Prod.mk.inj (hr.symm.trans heq)
  rcases hres with ⟨hne, -⟩ | ⟨-, -, hnew⟩
  · exact absurd rfl hne
  · exact ⟨hw, hnew⟩

/-- What `sys_fork` and `sys_clone` give a new process. -/
structure IsChild (share : Bool) (m : Memory) (roots : ℕ → Prop) (parent tp child : ℕ)
    (m' : Memory) : Prop where
  fresh : ¬ roots child
  spaces : Spaces m' (withRoot roots child)
  same : ∀ r va, roots r → pteOf r va m' = pteOf r va m
  user : ∀ va, IsUserPage va → IsChildPte share m parent va (pteOf child va m')
  trampolinePte : pteOf child trampoline m' = leafPte tp (pteR ||| pteX)
  trapframePte : ∃ tf, IsPage tf ∧ m.used tf = false ∧
    (∀ va, IsUserPage va → IsMapped child va m' → frameOf child va m' ≠ tf) ∧
    pteOf child trapframe m' = leafPte tf (pteR ||| pteW)
  distinct : share = false → ∀ va va', IsUserPage va → IsUserPage va' → IsMapped child va m' →
    IsMapped child va' m' → frameOf child va m' = frameOf child va' m' → va = va'

theorem vpn_trap_ne : vpn trampoline ≠ vpn trapframe := by decide

theorem IsUserPage.vpn_ne (hva : IsUserPage va) {trap : ℕ} (htrap : IsTrapPage trap) :
    vpn va ≠ vpn trap := by
  intro hvpn
  have htrap' : pageSize ∣ trap ∧ trap < 2 ^ 39 := by
    rcases htrap with rfl | rfl <;> decide
  have heq := vpn_inj hva.1 htrap'.1 hva.2.1 htrap'.2 hvpn
  exact hva.2.2 (heq ▸ htrap)

theorem IsChildPte.of_same {pte : ℕ} (hsame : pteOf parent va m1 = pteOf parent va m)
    (hused : ∀ a, m.used a = true → m1.used a = true) (h : IsChildPte share m1 parent va pte) :
    IsChildPte share m parent va pte := by
  unfold IsChildPte IsMapped at h ⊢
  rw [hsame] at h
  refine ⟨fun hv => ?_, h.2⟩
  cases share with
  | true => exact h.1 hv
  | false =>
    obtain ⟨page, hpage, hfree, hpte⟩ := h.1 hv
    refine ⟨page, hpage, ?_, hpte⟩
    rw [← Bool.not_eq_true]
    exact fun hu => ne_of_used (hused page hu) hfree rfl

theorem childPagetable_some (hr : childPagetable share parent tp m = (some child, m')) :
    ∃ m1 r m2 tf m3 m4,
    uvmcreate m = (some child, m1) ∧ childWalk share parent child m1 = (r, m2) ∧ 0 ≤ r ∧
    kzalloc m2 = (some tf, m3) ∧ mappages child trampoline tp 1 (pteR ||| pteX) m3 = (0, m4) ∧
    mappages child trapframe tf 1 (pteR ||| pteW) m4 = (0, m') := by
  unfold childPagetable at hr
  split at hr
  · cases hr
  rename_i root m1 hcreate
  dsimp only at hr
  split at hr
  · cases hr
  rename_i hwalk
  split at hr
  · cases hr
  rename_i tf m3 halloc
  split at hr
  · cases hr
  rename_i hmap1
  split at hr
  · cases hr
  rename_i hmap2
  obtain ⟨hroot, hm'⟩ := Prod.mk.inj hr
  obtain rfl := Option.some.inj hroot
  exact ⟨m1, _, _, tf, m3, _, hcreate, rfl, not_lt.mp hwalk, halloc,
    Prod.ext (not_not.mp hmap1) rfl, Prod.ext (not_not.mp hmap2) hm'⟩

theorem Spaces.childPagetable (h : Spaces m roots) (hparent : roots parent)
    (htp : IsFrame m roots tp) (hr : childPagetable share parent tp m = (some child, m')) :
    IsChild share m roots parent tp child m' := by
  obtain ⟨m1, r, m2, tf, m3, m4, hcreate, hwalk, hle, hkz, hmap1, hmap2⟩ := childPagetable_some hr
  have hcreated := h.uvmcreate hcreate
  have hne : parent ≠ child := fun he => hcreated.fresh (he ▸ hparent)
  have hready := hcreated.spaces.ready (Or.inl hparent) (Or.inr rfl) hne hcreated.empty
  obtain rfl : r = 0 := by
    rcases childWalk_result hready share with hzero | herr
    · rwa [hwalk] at hzero
    · rw [hwalk] at herr
      obtain rfl : r = -enomem := herr
      exact absurd hle (by decide)
  obtain ⟨hspaces2, hsame2, huser2, hused2, hframe2, hinj2⟩ := hcreated.spaces.childWalk
    (Or.inl hparent) (Or.inr rfl) hne hcreated.empty hwalk
  rcases hspaces2.kzalloc with ⟨m3', hnone, -⟩ | ⟨tf', m3', hsome, halloc⟩
  · rw [hkz] at hnone
    cases hnone
  rw [hkz] at hsome
  cases hsome
  have hroot : withRoot roots child child := Or.inr rfl
  have htp3 : IsFrame m3 (withRoot roots child) tp :=
    halloc.isFrame tp (hframe2 tp (hcreated.isFrame tp htp))
  obtain ⟨hw1, hnew1⟩ := halloc.spaces.mapOne hroot htp3 ⟨by decide, by decide⟩ hmap1
  obtain ⟨hw2, hnew2⟩ := hw1.spaces.mapOne hroot (hw1.isFrame tf halloc.frame)
    ⟨by decide, by decide⟩ hmap2
  have hused : ∀ a, m.used a = true → m2.used a = true := fun a hu => hused2 a (hcreated.used a hu)
  -- mapping the trap pages leaves the others alone
  have hchild : ∀ va, IsUserPage va → pteOf child va m' = pteOf child va m2 := by
    intro va hva
    have hva1 := hva.vpn_ne (Or.inl rfl)
    have hva2 := hva.vpn_ne (Or.inr rfl)
    rw [hw2.same child va hroot (Or.inr hva2), hw1.same child va hroot (Or.inr hva1),
      halloc.same child va hroot]
  refine ⟨hcreated.fresh, hw2.spaces, ?_, ?_, ?_, ⟨tf, halloc.frame.isPage, ?_, ?_, hnew2⟩, ?_⟩
  · intro r va hr'
    have hrc : r ∉ [child] := by
      rw [List.mem_singleton]
      exact fun he => hcreated.fresh (he ▸ hr')
    have hroot' : withRoot roots child r := Or.inl hr'
    rw [hw2.same r va hroot' (Or.inl hrc), hw1.same r va hroot' (Or.inl hrc),
      halloc.same r va hroot', hsame2 r va hroot' (fun he => hrc (by simp [he])),
      hcreated.same r va hr']
  · intro va hva
    rw [hchild va hva]
    exact (huser2 va hva).of_same (hcreated.same parent va hparent) hcreated.used
  · rw [hw2.same child trampoline hroot (Or.inr vpn_trap_ne), hnew1]
  · rw [← Bool.not_eq_true]
    exact fun hu => ne_of_used (hused tf hu) halloc.free rfl
  · intro va hva hv
    rw [IsMapped, hchild va hva] at hv
    rw [frameOf, hchild va hva]
    exact ne_of_used (hspaces2.frame child va hroot hv).used halloc.free
  · intro hshare va va' hva hva' hv hv' heq
    rw [IsMapped, hchild va hva] at hv
    rw [IsMapped, hchild va' hva'] at hv'
    rw [frameOf, frameOf, hchild va hva, hchild va' hva'] at heq
    exact hinj2 hshare va va' hva hva' hv hv' heq

/-! ## Failures -/

theorem Created.discard {m2 : Memory} (h : Spaces m roots) (hcreated : Created m roots child m1)
    (hedit : Edited child (fun _ => True) m1 m2) :
    Untouched m roots (pagetableDestroy child m2) := by
  have hfreed := pagetableDestroy_spec child m2
  have hroot : withRoot roots child child := Or.inr rfl
  -- pages that were in use and are no table of the child stay
  have hkeep : ∀ a, m.used a = true → ¬ Owns m1 child a →
      (pagetableDestroy child m2).used a = true := by
    intro a hu hnot
    have hu1 := hcreated.used a hu
    rw [hfreed.same a (hedit.notOwns hu1 hnot)]
    exact hedit.used a hu1
  have hown : ∀ r a, roots r → Owns m r a → ¬ Owns m1 child a := by
    intro r a hr ha
    have hne : r ≠ child := fun he => hcreated.fresh (he ▸ hr)
    refine hcreated.spaces.apart r child (Or.inl hr) hroot hne a ?_
    rwa [owns_congr (fun b hb => hcreated.word b ((h.table r hr).pages b hb).2)]
  have hword : ∀ r a, roots r → Owns m r a → (pagetableDestroy child m2).word a = m.word a := by
    intro r a hr ha
    have hu := ((h.table r hr).pages a ha).2
    rw [hfreed.word, hedit.frame a (hcreated.used a hu) (hown r a hr ha), hcreated.word a hu]
  have hframe : ∀ a, IsFrame m roots a → (pagetableDestroy child m2).used a = true :=
    fun a ha => hkeep a ha.used ((hcreated.isFrame a ha).notOwns child hroot)
  exact ⟨hword, fun r a hr ha => hkeep a ((h.table r hr).pages a ha).2 (hown r a hr ha),
    fun r va hr hv => hframe _ (h.frame r va hr hv)⟩

theorem Spaces.childPagetable_none (h : Spaces m roots) (hparent : roots parent)
    (hr : Vm.childPagetable share parent tp m = (none, m')) : Untouched m roots m' := by
  unfold Vm.childPagetable at hr
  cases hcreate : Vm.uvmcreate m with
  | mk root m1 =>
    rw [hcreate] at hr
    cases root with
    | none =>
      obtain rfl := (Prod.mk.inj hr).2
      rcases h.kzalloc with ⟨m2, hnone, hword, hused⟩ | ⟨pa, m2, hsome, -⟩
      · obtain rfl := (Prod.mk.inj (hcreate.symm.trans hnone)).2
        exact h.untouched (fun a _ => by rw [hword]) (fun a hu => by rwa [hused])
      · cases hcreate.symm.trans hsome
    | some child =>
      have hcreated := h.uvmcreate hcreate
      have hne : parent ≠ child := fun he => hcreated.fresh (he ▸ hparent)
      have hready := hcreated.spaces.ready (Or.inl hparent) (Or.inr rfl) hne hcreated.empty
      have hwalk := childWalk_edited hready share
      dsimp only at hr
      split at hr
      · obtain rfl := (Prod.mk.inj hr).2
        exact hcreated.discard h hwalk
      rcases hwalk.table.kzalloc (fun _ => True) with ⟨m3, hkz, halloc⟩ |
        ⟨tf, m3, hkz, hfree, hused, halloc, hnot⟩
      · rw [hkz] at hr
        obtain rfl := (Prod.mk.inj hr).2
        exact hcreated.discard h (hwalk.trans halloc)
      rw [hkz] at hr
      dsimp only at hr
      -- the trap frame was free before the walk, and giving it back undoes that
      have hgive : ∀ m5, Edited child (fun _ => True) m3 m5 →
          Untouched m roots (pagetableDestroy child (Vm.kfree tf m5)) := fun m5 hedit =>
        hcreated.discard h (((hwalk.trans halloc).trans hedit).kfree (hwalk.unused hfree)
          (hedit.notOwns hused hnot))
      obtain ⟨r1, m4, hmap1, hedit1, -⟩ := halloc.table.mapPage trampoline tp (pteR ||| pteX)
      have hedit1' : Edited child (fun _ => True) m3 m4 := hedit1.toEdited.mono (fun _ _ => trivial)
      rw [hmap1] at hr
      split at hr
      · obtain rfl := (Prod.mk.inj hr).2
        exact hgive m4 hedit1'
      obtain ⟨r2, m5, hmap2, hedit2, -⟩ := hedit1.table.mapPage trapframe tf (pteR ||| pteW)
      rw [hmap2] at hr
      split at hr
      · obtain rfl := (Prod.mk.inj hr).2
        exact hgive m5 (hedit1'.trans (hedit2.toEdited.mono (fun _ _ => trivial)))
      · cases hr

end NoobKernel.Vm
