import NoobKernel.Verification.Ext4.DirectoryMap

/-! # Renaming

`ext4_rename` removes the new name, adds it again for the inode of the old one, and removes the old
name. If both names are the same, the last step removes what has been added. If a step fails, what
the steps before have done stays. -/

namespace NoobKernel.Ext4

open Library List Slot

variable {sbi : SbInfo} {reserved : ℕ → Prop} {f : RenameFaults} {dir dir' : Inode} {s s' s1 : Fs}
  {blocks blocks1 : List (List Slot)} {old new : List UInt8} {ino : ℕ} {isDir : Bool} {v : ℤ}

/-- What a rename is for. -/
structure Renamed (sbi : SbInfo) (dir : Inode) (ino : ℕ) (old new : List UInt8) (s : Fs)
    (dir' : Inode) (s' : Fs) : Prop where
  new_name : dirLookup sbi dir'.raw new s'.disk = ino
  old_name : old ≠ new → dirLookup sbi dir'.raw old s'.disk = 0
  other : ∀ name, ValidName name → name ≠ old → name ≠ new →
    dirLookup sbi dir'.raw name s'.disk = dirLookup sbi dir.raw name s.disk

/-- A rename that returns zero has done what it is for, and one that returns an error has changed
no name. -/
def RenameLaw (sbi : SbInfo) (f : RenameFaults) (dir : Inode) (ino : ℕ) (isDir : Bool)
    (old new : List UInt8) (s : Fs) : Prop :=
  ∀ v dir' s', rename sbi f dir ino isDir old new s = .ok (v, dir', s') →
    if v = 0 then Renamed sbi dir ino old new s dir' s'
    else ∀ name, ValidName name →
      dirLookup sbi dir'.raw name s'.disk = dirLookup sbi dir.raw name s.disk

/-- Which failures of allocations do no harm. The removals and the new entry are harmless if they are
not reached. -/
def RenameSafe (sbi : SbInfo) (f : RenameFaults) (dir : Inode) (old new : List UInt8) (s : Fs)
    (slots : List Slot) : Prop :=
  if f.lookup = true ∨ lookup new slots = 0 then
    f.add = true ∨ ¬ HasSpace sbi dir new s slots ∨
      if old = new then f.unlinkOld = true
      else if lookup new slots = 0 then f.unlinkOld = false
      else lookup new slots = lookup old slots ∨ (SpaceBefore new slots ↔ f.unlinkOld = false)
  else
    f.existing ≠ .found ∨ f.unlinkNew = true ∨ f.add = false ∧
      if old = new then f.unlinkOld = true
      else f.unlinkOld = false ∨ lookup new slots = lookup old slots

/-! ## The steps -/

theorem fileType_lt (isDir : Bool) : (if isDir then ftDir else ftRegFile) < 2 ^ 8 := by
  cases isDir <;> decide

section

variable (h : Dir sbi reserved dir s blocks) (hg : Growable sbi dir) (hnew : ValidName new)
  (hino : ino < 2 ^ 32)

include h hg hnew hino

theorem Dir.renameTail_stop (hstop : f.add = true ∨ ¬ HasSpace sbi dir new s blocks.flatten) :
    ∃ v s', renameTail sbi f dir ino isDir old new s = .ok (v, dir, s') ∧ v < 0 ∧
      Dir sbi reserved dir s' blocks := by
  unfold renameTail
  cases hadd : f.add with
  | true => exact ⟨-enomem, s, rfl, by decide, h⟩
  | false =>
    have hspec := h.add_spec hg ⟨hino, hnew.2, fileType_lt isDir⟩
    generalize addDirEntry sbi dir ino new (if isDir then ftDir else ftRegFile) s = r at hspec
    cases hspec with
    | added _ _ hspace _ =>
      exact absurd hspace (hstop.resolve_left fun htrue => by rw [hadd] at htrue; cases htrue)
    | @failed e s' he hdir hspace =>
      have hneg : e < 0 := by
        rcases he with rfl | rfl <;> decide
      exact ⟨e, s', if_pos hneg, hneg, hdir⟩

theorem Dir.renameTail_go (isDir : Bool) (hsize : dir.iSize + sbi.blockSize < 2 ^ 32)
    (hold : ValidName old) (hzero : ino ≠ 0) (hadd : f.add = false)
    (hspace : HasSpace sbi dir new s blocks.flatten)
    (hthere : old ≠ new → lookup old blocks.flatten ≠ 0) :
    ∃ blocks' dir' s', Inserts new ino blocks.flatten blocks'.flatten ∧
      if f.unlinkOld = true then renameTail sbi f dir ino isDir old new s = .ok (-enomem, dir', s') ∧
        Dir sbi reserved dir' s' blocks'
      else renameTail sbi f dir ino isDir old new s = .ok (0, dir', s') ∧
        Dir sbi reserved dir' s' (blocks'.map (List.map (unlinked old))) := by
  unfold renameTail
  have hspec := h.add_spec hg ⟨hino, hnew.2, fileType_lt isDir⟩
  rw [hadd, if_neg Bool.false_ne_true]
  generalize addDirEntry sbi dir ino new (if isDir then ftDir else ftRegFile) s = r at hspec
  cases hspec with
  | failed _ _ hfull => exact absurd hspace hfull
  | @added dir' s' blocks' hdir hinserts _ hle =>
    rw [if_neg (lt_irrefl 0)]
    cases hfault : f.unlinkOld with
    | true => exact ⟨blocks', dir', s', hinserts, by rw [if_pos rfl]; exact ⟨rfl, hdir⟩⟩
    | false =>
      have hthere' : lookup old blocks'.flatten ≠ 0 := by
        by_cases hsame : old = new
        · subst hsame
          by_cases habsent : lookup old blocks.flatten = 0
          · rw [hinserts.lookup_absent habsent, if_pos rfl]
            exact hzero
          · rcases hinserts.lookup_there hzero habsent with ⟨-, heq⟩ | ⟨-, heq⟩ <;> rwa [heq]
        · rw [hinserts.lookup_other hsame]
          exact hthere hsame
      obtain ⟨d', heq, hdir'⟩ := hdir.unlink_spec hold.2 (by omega) hthere'
      refine ⟨blocks', dir', { s' with disk := d' }, hinserts, ?_⟩
      rw [if_neg Bool.false_ne_true, if_neg Bool.false_ne_true, heq]
      exact ⟨rfl, hdir'⟩

end

/-! ## The law for a run of the steps -/

theorem renameLaw_of_error (h : Dir sbi reserved dir s blocks)
    (heq : rename sbi f dir ino isDir old new s = .ok (v, dir', s')) (hneg : v < 0)
    (hdir : Dir sbi reserved dir' s' blocks) : RenameLaw sbi f dir ino isDir old new s := by
  intro v' dir'' s'' heq'
  cases heq.symm.trans heq'
  rw [if_neg (by omega)]
  intro name hname
  rw [hdir.dirLookup_eq hname.2, h.dirLookup_eq hname.2]

section

variable (h : Dir sbi reserved dir s blocks) (h1 : Dir sbi reserved dir s1 blocks1)
  (hg : Growable sbi dir) (hsize : dir.iSize + sbi.blockSize < 2 ^ 32) (hold : ValidName old)
  (hnew : ValidName new) (hino : lookup old blocks.flatten = ino) (hlt : ino < 2 ^ 32)
    (hzero : ino ≠ 0)
  (hsame : ∀ name, name ≠ new → lookup name blocks1.flatten = lookup name blocks.flatten)
  (heq : rename sbi f dir ino isDir old new s = renameTail sbi f dir ino isDir old new s1)

include h h1 hg hsize hold hnew hino hlt hzero hsame heq

/-- The law where the new name is added: the name is as before if the old one stays, and it is the
inode of the old one otherwise. -/
theorem renameLaw_tail (hadd : f.add = false) (hspace : HasSpace sbi dir new s1 blocks1.flatten) :
    ∃ slots', Inserts new ino blocks1.flatten slots' ∧ (RenameLaw sbi f dir ino isDir old new s ↔
      if f.unlinkOld = true then lookup new slots' = lookup new blocks.flatten
      else old ≠ new ∧ lookup new slots' = ino) := by
  have hthere : old ≠ new → lookup old blocks1.flatten ≠ 0 := by
    intro hne
    rwa [hsame old hne, hino]
  obtain ⟨blocks', dir', s', hinserts, hend⟩ :=
    h1.renameTail_go hg hnew hlt isDir hsize hold hzero hadd hspace hthere
  refine ⟨blocks'.flatten, hinserts, ?_⟩
  have hother : ∀ name, name ≠ new → lookup name blocks'.flatten = lookup name blocks.flatten :=
    fun name hne => (hinserts.lookup_other hne).trans (hsame name hne)
  unfold RenameLaw
  rw [heq]
  split at hend
  next hfault =>
    rw [if_pos hfault, hend.1]
    constructor
    · intro hlaw
      have hnames := hlaw _ _ _ rfl
      rw [← hend.2.dirLookup_eq hnew.2, ← h.dirLookup_eq hnew.2]
      exact hnames new hnew
    · rintro hkept _ _ _ ⟨⟩
      intro name hname
      rw [hend.2.dirLookup_eq hname.2, h.dirLookup_eq hname.2]
      by_cases hne : name = new
      · rw [hne, hkept]
      · exact hother name hne
  next hfault =>
    have hlookup : ∀ name, ValidName name → dirLookup sbi dir'.raw name s'.disk =
        if name = old then 0 else lookup name blocks'.flatten := by
      intro name hname
      rw [hend.2.dirLookup_eq hname.2, ← map_flatten, lookup_unlinked]
    rw [if_neg hfault, hend.1]
    constructor
    · intro hlaw
      have hnames := hlaw _ _ _ rfl
      have hfound := hnames.new_name
      rw [hlookup new hnew] at hfound
      split at hfound
      · exact absurd hfound.symm hzero
      next hne => exact ⟨Ne.symm hne, hfound⟩
    · rintro ⟨hne, hfound⟩ _ _ _ ⟨⟩
      refine ⟨?_, fun _ => ?_, fun name hname hold' hnew' => ?_⟩
      · rw [hlookup new hnew, if_neg hne.symm, hfound]
      · rw [hlookup old hold, if_pos rfl]
      · rw [hlookup name hname, if_neg hold', hother name hnew', h.dirLookup_eq hname.2]

end

theorem not_full_unlinked {slots : List Slot} (hnew : ValidName new)
    (hthere : lookup new slots ≠ 0) :
    ¬ Full (recLenFor new.length) (slots.map (unlinked new)) := by
  intro hfull
  refine hthere (lookup_eq_zero.mpr fun t ht => Bool.eq_false_iff.mpr fun hholds => ?_)
  rw [holds, Bool.and_eq_true] at hholds
  have hlarge := hfull t.clear (by
    rw [← unlinked_of_named hholds.2]
    exact mem_map_of_mem ht) rfl
  have hlen : t.nameLen = new.length := by
    have hnamed := hholds.2
    simp only [named, Bool.and_eq_true, decide_eq_true_eq] at hnamed
    exact hnamed.1
  have hfits := t.fits
  have haligned := t.aligned
  have hpos := hnew.1
  have hrec : t.clear.recLen = 8 + t.body.length := rfl
  simp only [recLenFor, direntSize, hrec] at hlarge
  omega

theorem lookup_lt (name : List UInt8) (slots : List Slot) : lookup name slots < 2 ^ 32 := by
  induction slots with
  | nil => exact Nat.two_pow_pos 32
  | cons t slots ih =>
    rw [lookup_cons]
    split
    · exact t.ino_lt
    · exact ih

/-- The law where the new name is added without being removed before. -/
theorem skipped_iff {slots slots' : List Slot} (hthere : lookup old slots ≠ 0)
    (hinserts : Inserts new (lookup old slots) slots slots') :
    (if f.unlinkOld = true then lookup new slots' = lookup new slots
      else old ≠ new ∧ lookup new slots' = lookup old slots) ↔
    if old = new then f.unlinkOld = true
      else if lookup new slots = 0 then f.unlinkOld = false
      else lookup new slots = lookup old slots ∨ (SpaceBefore new slots ↔ f.unlinkOld = false) := by
  by_cases hsame : old = new
  · subst hsame
    have hfound : lookup old slots' = lookup old slots := by
      rcases hinserts.lookup_there hthere hthere with ⟨-, h⟩ | ⟨-, h⟩ <;> exact h
    cases f.unlinkOld <;> simp [hfound]
  by_cases habsent : lookup new slots = 0
  · have hfound := hinserts.lookup_absent habsent new
    cases f.unlinkOld <;> simp [hsame, habsent, hfound, hthere]
  · rcases hinserts.lookup_there hthere habsent with ⟨hspace, hfound⟩ | ⟨hspace, hfound⟩
    · cases f.unlinkOld <;> simp [hsame, habsent, hfound, hspace, eq_comm]
    · cases f.unlinkOld <;> simp [hsame, habsent, hfound, hspace]

theorem removed_iff {slots slots1 slots' : List Slot} (habsent : lookup new slots1 = 0)
    (hinserts : Inserts new (lookup old slots) slots1 slots') :
    (if f.unlinkOld = true then lookup new slots' = lookup new slots
      else old ≠ new ∧ lookup new slots' = lookup old slots) ↔
    if old = new then f.unlinkOld = true
      else f.unlinkOld = false ∨ lookup new slots = lookup old slots := by
  have hfound := hinserts.lookup_absent habsent new
  by_cases hsame : old = new
  · subst hsame
    cases f.unlinkOld <;> simp [hfound]
  · cases f.unlinkOld <;> simp [hsame, hfound, eq_comm]

theorem Dir.rename_removed (isDir : Bool) (old : List UInt8) (h : Dir sbi reserved dir s blocks)
    (hsize : dir.iSize < 2 ^ 32)
    (hnew : ValidName new) (hthere : lookup new blocks.flatten ≠ 0) (hlookup : f.lookup = false)
    (hfound : f.existing = .found) (hunlink : f.unlinkNew = false) :
    ∃ s1, Dir sbi reserved dir s1 (blocks.map (List.map (unlinked new))) ∧
      ∀ ino, rename sbi f dir ino isDir old new s = renameTail sbi f dir ino isDir old new s1 := by
  obtain ⟨d', hremove, hdir⟩ := h.unlink_spec hnew.2 hsize hthere
  refine ⟨{ s with disk := d' }, hdir, fun ino => ?_⟩
  unfold rename renameOver
  rw [hlookup, if_neg Bool.false_ne_true, h.dirLookup_eq hnew.2, if_neg hthere, hfound, hunlink]
  rw [if_neg Bool.false_ne_true, hremove]
  rfl

theorem lookup_removed (blocks : List (List Slot)) (new name : List UInt8) :
    lookup name (blocks.map (List.map (unlinked new))).flatten =
      if name = new then 0 else lookup name blocks.flatten := by
  rw [← map_flatten, lookup_unlinked]

/-! ## A directory with two names -/

def noFaults : RenameFaults := ⟨false, .found, false, false, false⟩

/-! ## The law -/

/-- `ext4_rename` keeps the law exactly if the failures of allocations do no harm and the names are
not the same. -/
theorem rename_law_iff (f : RenameFaults) (isDir : Bool) (h : Dir sbi reserved dir s blocks)
    (hg : Growable sbi dir) (hsize : dir.iSize + sbi.blockSize < 2 ^ 32) (hold : ValidName old)
    (hnew : ValidName new) (hthere : dirLookup sbi dir.raw old s.disk ≠ 0) :
    RenameLaw sbi f dir (dirLookup sbi dir.raw old s.disk) isDir old new s ↔
      RenameSafe sbi f dir old new s blocks.flatten := by
  rw [h.dirLookup_eq hold.2] at hthere ⊢
  have hlt := lookup_lt old blocks.flatten
  unfold RenameSafe
  by_cases hskip : f.lookup = true ∨ lookup new blocks.flatten = 0
  · have heq : ∀ ino,
      rename sbi f dir ino isDir old new s = renameTail sbi f dir ino isDir old new s := by
      intro ino
      have hexisting : (if f.lookup = true then 0 else dirLookup sbi dir.raw new s.disk) = 0 := by
        rw [h.dirLookup_eq hnew.2]
        split
        · rfl
        next hlookup => exact hskip.resolve_left hlookup
      unfold rename
      rw [if_pos hexisting]
    rw [if_pos hskip]
    by_cases hstop : f.add = true ∨ ¬ HasSpace sbi dir new s blocks.flatten
    · obtain ⟨v, s', htail, hneg, hdir⟩ := h.renameTail_stop hg hnew hlt hstop
      refine iff_of_true (renameLaw_of_error h ((heq _).trans htail) hneg hdir) ?_
      exact hstop.imp_right Or.inl
    rw [not_or, not_not] at hstop
    obtain ⟨slots', hinserts, hlaw⟩ := renameLaw_tail h h hg hsize hold hnew rfl hlt hthere
      (fun _ _ => rfl) (heq _) (Bool.eq_false_iff.mpr hstop.1) hstop.2
    rw [hlaw, or_iff_right hstop.1, or_iff_right (not_not.mpr hstop.2)]
    exact skipped_iff hthere hinserts
  · rw [if_neg hskip]
    rw [not_or] at hskip
    have hexisting : (if f.lookup = true then 0 else dirLookup sbi dir.raw new s.disk) ≠ 0 := by
      rw [if_neg hskip.1, h.dirLookup_eq hnew.2]
      exact hskip.2
    have heq : ∀ ino,
      rename sbi f dir ino isDir old new s = renameOver sbi f dir ino isDir old new s :=
      fun ino => if_neg hexisting
    cases hfound : f.existing with
    | noMemory =>
      refine iff_of_true (fun v dir' s' hret => ?_) (Or.inl (by decide))
      rw [heq, renameOver, hfound] at hret
      cases hret
    | noEntry =>
      refine iff_of_true (renameLaw_of_error h (v := -enoent) ?_ (by decide) h) (Or.inl (by decide))
      rw [heq, renameOver, hfound]
    | found =>
      rw [or_iff_right (not_not.mpr rfl)]
      cases hunlink : f.unlinkNew with
      | true =>
        refine iff_of_true (renameLaw_of_error h (v := -enomem) ?_ (by decide) h) (Or.inl rfl)
        rw [heq, renameOver, hfound, hunlink]
        rfl
      | false =>
        obtain ⟨s1, h1, heq'⟩ := h.rename_removed isDir old (by omega) hnew hskip.2
          (Bool.eq_false_iff.mpr hskip.1) hfound hunlink
        have habsent := (lookup_removed blocks new new).trans (if_pos rfl)
        rw [or_iff_right Bool.false_ne_true]
        cases hadd : f.add with
        | true =>
          obtain ⟨v, s', htail, hneg, hdir⟩ := h1.renameTail_stop hg hnew hlt (Or.inl hadd)
          refine iff_of_false (fun hlaw => ?_) fun hsafe => Bool.true_eq_false.mp hsafe.1
          have hnames := hlaw v dir s' ((heq' _).trans htail)
          rw [if_neg (by omega)] at hnames
          have hlost := hnames new hnew
          rw [hdir.dirLookup_eq hnew.2, h.dirLookup_eq hnew.2, habsent] at hlost
          exact hskip.2 hlost.symm
        | false =>
          have hspace : HasSpace sbi dir new s1
              (blocks.map (List.map (unlinked new))).flatten := by
            refine Or.inl ?_
            rw [← map_flatten]
            exact not_full_unlinked hnew hskip.2
          obtain ⟨slots', hinserts, hlaw⟩ := renameLaw_tail h h1 hg hsize hold hnew rfl hlt hthere
            (fun name hne => (lookup_removed blocks new name).trans (if_neg hne))
              (heq' _) hadd hspace
          rw [hlaw, and_iff_right rfl]
          exact removed_iff habsent hinserts

/-- A name takes the place of another one. -/
theorem rename_law_two :
    ValidName [98] ∧ ValidName [97] ∧
      dirLookup smallFs oneBlockDir.raw [98] (oneBlockFs twoSlots).disk ≠ 0 ∧
      RenameLaw smallFs noFaults oneBlockDir
        (dirLookup smallFs oneBlockDir.raw [98] (oneBlockFs twoSlots).disk)
        true [98] [97] (oneBlockFs twoSlots) := by
  have hthere : dirLookup smallFs oneBlockDir.raw [98] (oneBlockFs twoSlots).disk ≠ 0 := by
    rw [two_names (by decide)]
    decide
  refine ⟨by decide, by decide, hthere,
    (rename_law_iff noFaults true two_dir oneBlock_growable (by decide)
    (by decide) (by decide) hthere).mpr ?_⟩
  exact Or.inr (Or.inr ⟨rfl, Or.inl rfl⟩)

/-- The new name is removed for good if it is the old one, and if there is no memory for the buffer
of the new entry. -/
theorem rename_law_fails :
    (dirLookup smallFs oneBlockDir.raw [98] (oneBlockFs twoSlots).disk = 6 ∧
      dirLookup smallFs oneBlockDir.raw [97] (oneBlockFs twoSlots).disk = 7) ∧
    (∃ dir' s', rename smallFs noFaults oneBlockDir 6 true [98] [98] (oneBlockFs twoSlots) = .ok
      (0, dir', s') ∧
      dirLookup smallFs dir'.raw [98] s'.disk = 0) ∧
    ∃ dir' s', rename smallFs { noFaults with add := true } oneBlockDir 6 true [98] [97]
        (oneBlockFs twoSlots) = .ok (-enomem, dir', s') ∧
      dirLookup smallFs dir'.raw [97] s'.disk = 0 := by
  have hself : lookup [98] [twoSlots].flatten ≠ 0 := by
    decide
  have hother : lookup [97] [twoSlots].flatten ≠ 0 := by
    decide
  refine ⟨⟨two_names (by decide), two_names (by decide)⟩, ?_, ?_⟩
  · obtain ⟨s1, hdir, heq⟩ :=
      two_dir.rename_removed (f := noFaults) true [98] (by decide) (by decide) hself rfl rfl rfl
    have hspace : HasSpace smallFs oneBlockDir [98] s1
        ([twoSlots].map (List.map (unlinked [98]))).flatten := by
      refine Or.inl ?_
      exact not_full_unlinked (by decide) hself
    obtain ⟨blocks', dir', s', -, hend⟩ := hdir.renameTail_go (f := noFaults)
      oneBlock_growable (by decide) (show 6 < 2 ^ 32 by decide) true (by decide) (by decide)
      (by decide) rfl hspace fun hne => absurd rfl hne
    refine ⟨dir', s', (heq 6).trans hend.1, ?_⟩
    rw [hend.2.dirLookup_eq (by decide), lookup_removed, if_pos rfl]
  · obtain ⟨s1, hdir, heq⟩ := two_dir.rename_removed (f := { noFaults with add := true }) true
      [98] (by decide) (by decide) hother rfl rfl rfl
    refine ⟨oneBlockDir, s1, heq 6, ?_⟩
    rw [hdir.dirLookup_eq (by decide), lookup_removed, if_pos rfl]

end NoobKernel.Ext4
