import NoobKernel.Verification.Ext4.Directory

/-! # New entries of a directory

`ext4_add_dir_entry` takes the first free entry that is large enough, or the space behind the name of
the last entry, or a new block. -/

namespace NoobKernel.Ext4

open Library List Slot Nat

variable {sbi : SbInfo} {reserved : ℕ → Prop} {dir : Inode} {s : Fs} {d : Disk UInt8}
  {blocks : List (List Slot)} {slots slots' front back : List Slot} {t u : Slot}
  {name other : List UInt8} {ino fileType need b : ℕ}

/-! ## Looking for space -/

/-- No free slot is large enough. -/
def Full (need : ℕ) (slots : List Slot) : Prop := ∀ t ∈ slots, t.ino = 0 → t.recLen < need

theorem full_append : Full need (front ++ back) ↔ Full need front ∧ Full need back :=
  forall_mem_append

/-- How the scan of a directory ends. -/
inductive Space (sbi : SbInfo) (raw : RawInode) (d : Disk UInt8) (need : ℕ)
    (blocks : List (List Slot)) : DirScan → Prop
  | slot {before after : List (List Slot)} {front back : List Slot} {t : Slot} {b : ℕ}
      (hblocks : blocks = before ++ (front ++ t :: back) :: after) (hfree : t.ino = 0)
      (hneed : need ≤ t.recLen) (hfull : Full need (before.flatten ++ front))
      (hb : mapping sbi raw d before.length = some b) :
      Space sbi raw d need blocks (.slot (d.block sbi.blockSize b) b (slotBytes front).length)
  | last {before : List (List Slot)} {front : List Slot} {t : Slot} {b : ℕ}
      (hblocks : blocks = before ++ [front ++ [t]]) (hfull : Full need blocks.flatten)
      (hb : mapping sbi raw d before.length = some b) :
      Space sbi raw d need blocks (.done (some ⟨d.block sbi.blockSize b, b, (slotBytes front).length,
        before.length * sbi.blockSize + (slotBytes front).length⟩))

theorem Dir.scanDir_space (h : Dir sbi reserved dir s blocks) (need : ℕ) (after : List (List Slot)) :
    ∀ before fuel last, blocks = before ++ after → after.length ≤ fuel → Full need before.flatten →
    (after = [] → Space sbi dir.raw s.disk need blocks (.done last)) →
    Space sbi dir.raw s.disk need blocks
      (scanDir sbi dir.raw s.disk need (blocks.length * sbi.blockSize) fuel
        (before.length * sbi.blockSize) last) := by
  induction after with
  | nil =>
    intro before fuel last hblocks _ _ hlast
    rw [append_nil] at hblocks
    cases fuel with
    | zero => exact hlast rfl
    | succ fuel =>
      rw [scanDir, if_pos (by rw [hblocks])]
      exact hlast rfl
  | cons slots after ih =>
    intro before fuel last hblocks hfuel hfull _
    obtain ⟨fuel, rfl, hle⟩ := exists_fuel hfuel
    have hpos := sbi.blockSize_pos
    have hat : blocks[before.length]? = some slots := by simp [hblocks]
    have hlen : before.length + 1 ≤ blocks.length := by simp [hblocks]
    have hlimit := mul_le_mul_right sbi.blockSize hlen
    rw [succ_mul] at hlimit
    obtain ⟨b, hb, hbytes⟩ := h.block _ _ hat
    have hsize := h.length_slotBytes hat
    have hfuel' : slots.length ≤ sbi.blockSize := hsize ▸ length_le_slotBytes slots
    rw [scanDir, if_neg (by omega)]
    dsimp only
    rw [Nat.mul_div_cancel _ hpos, Nat.mod_eq_of_lt (mapping_lt hb), getFileBlock_of_mapping hb,
      if_neg (not_or.mpr ⟨h.ne_zero hb, h.ne_noBlock hb⟩), readAt_eq, Nat.mul_mod_left, ← Disk.block]
    have hscan := scanBlock_cases need hlimit slots 0 sbi.blockSize 0 0
      ⟨⟨[], [], hbytes.trans (append_nil _).symm, rfl⟩, by rw [hsize, zero_add]⟩ hfuel'
    simp only [add_zero, zero_add] at hscan
    rcases hscan with ⟨front, t, back, rfl, hfree, hneed, hsmall, heq⟩ | ⟨rfl, -⟩ |
      ⟨front, t, rfl, hsmall, heq⟩
    · rw [heq]
      exact .slot hblocks hfree hneed (full_append.mpr ⟨hfull, hsmall⟩) hb
    · exact absurd rfl (h.ne_nil hat)
    rw [heq]
    have hfull' : Full need (before ++ [front ++ [t]]).flatten := by
      rw [flatten_append, flatten_singleton]
      exact full_append.mpr ⟨hfull, hsmall⟩
    have hrest := ih (before ++ [front ++ [t]]) fuel
      (some ⟨s.disk.block sbi.blockSize b, b, (slotBytes front).length,
        before.length * sbi.blockSize + (slotBytes front).length⟩)
      (by rw [hblocks, append_assoc, singleton_append])
      hle hfull' (by
        rintro rfl
        exact .last hblocks (hblocks ▸ hfull') hb)
    rwa [length_append, length_singleton, succ_mul] at hrest

/-! ## The slots with a new one -/

/-- A free slot that is large enough lies before the slot in use for a name. -/
def SpaceBefore (name : List UInt8) (slots : List Slot) : Prop :=
  ∃ front t back, slots = front ++ t :: back ∧ t.ino = 0 ∧ recLenFor name.length ≤ t.recLen ∧
    lookup name front = 0

/-- A slot for a name has been added. If the name was there already, the new slot is the one that is
found exactly if there was space before the old one. -/
inductive Inserts (name : List UInt8) (ino : ℕ) (slots : List Slot) : List Slot → Prop
  | mk {front back : List Slot} {u : Slot} (hu : u.IsFor ino name)
      (hrest : ∀ other, lookup other (front ++ back) = lookup other slots)
      (hplace : lookup name slots ≠ 0 → (lookup name front = 0 ↔ SpaceBefore name slots)) :
      Inserts name ino slots (front ++ u :: back)

theorem Inserts.lookup_absent (h : Inserts name ino slots slots') (habsent : lookup name slots = 0)
    (other : List UInt8) :
    lookup other slots' = if other = name then ino else lookup other slots := by
  obtain @⟨front, back, u, hu, hrest, -⟩ := h
  rw [lookup_insert hu ((hrest name).trans habsent), hrest]

theorem Inserts.lookup_other (h : Inserts name ino slots slots') (hne : other ≠ name) :
    lookup other slots' = lookup other slots := by
  obtain @⟨front, back, u, hu, hrest, -⟩ := h
  rw [← hrest, lookup_append, lookup_append, lookup_cons, holds_of_ne hu.name hne,
    if_neg Bool.false_ne_true]

theorem Inserts.lookup_there (h : Inserts name ino slots slots') (hzero : ino ≠ 0)
    (hthere : lookup name slots ≠ 0) :
    SpaceBefore name slots ∧ lookup name slots' = ino ∨
      ¬ SpaceBefore name slots ∧ lookup name slots' = lookup name slots := by
  obtain @⟨front, back, u, ⟨rfl, hlen, hname⟩, hrest, hplace⟩ := h
  have hholds : u.holds name = true := by simp [holds, named, hname, hlen, hzero]
  rw [← hplace hthere, ← hrest name, lookup_append, lookup_append, lookup_cons, if_pos hholds]
  by_cases hfront : lookup name front = 0
  · exact Or.inl ⟨hfront, if_pos hfront⟩
  · exact Or.inr ⟨hfront, by rw [if_neg hfront, if_neg hfront]⟩

theorem Full.not_spaceBefore (h : Full (recLenFor name.length) slots) :
    ¬ SpaceBefore name slots := by
  rintro ⟨front, t, back, rfl, hfree, hneed, -⟩
  exact absurd (h t (by simp) hfree) (not_lt.mpr hneed)

theorem inserts_reuse (hfree : t.ino = 0) (hneed : recLenFor name.length ≤ t.recLen)
    (hfull : Full (recLenFor name.length) front) (hu : u.IsFor ino name) :
    Inserts name ino (front ++ t :: back) (front ++ u :: back) := by
  refine ⟨hu, fun other => (lookup_free hfree).symm, fun _ => ⟨fun hzero => ?_, ?_⟩⟩
  · exact ⟨front, t, back, rfl, hfree, hneed, hzero⟩
  · rintro ⟨front', t', back', heq, hfree', hneed', hzero⟩
    -- a large slot further ahead would have been taken
    have hle : front.length ≤ front'.length := by
      by_contra hlt
      have hmem : t' ∈ front := by
        have hget := congrArg (·[front'.length]?) heq
        simp only [List.getElem?_append_left (Nat.not_le.mp hlt), List.getElem?_append_right le_rfl,
          Nat.sub_self, List.getElem?_cons_zero] at hget
        exact mem_of_getElem? hget
      exact absurd (hfull t' hmem hfree') (Nat.not_lt.mpr hneed')
    have hinit : front' = front ++ front'.drop front.length := by
      have htake := congrArg (List.take front.length) heq
      rw [take_left, take_append_of_le_length hle] at htake
      conv_lhs => rw [← take_append_drop front.length front', ← htake]
    rw [lookup_eq_zero] at hzero ⊢
    exact fun v hv => hzero v (hinit ▸ mem_append_left _ hv)

theorem inserts_behind (hfull : Full (recLenFor name.length) slots) (hu : u.IsFor ino name)
    (hsame : ∀ other, lookup other front = lookup other slots) :
    Inserts name ino slots (front ++ [u]) := by
  refine ⟨hu, fun other => ?_, fun hthere => ?_⟩
  · rw [append_nil, hsame]
  · rw [hsame]
    exact iff_of_false hthere hfull.not_spaceBefore

theorem lookup_cut (hholds : ∀ other, u.holds other = t.holds other) (hino : u.ino = t.ino) :
    lookup other (front ++ [u]) = lookup other (front ++ [t]) := by
  rw [lookup_append, lookup_append, lookup_cons, lookup_cons, hholds, hino]

/-! ## Adding an entry -/

/-- There is space for a name: a free slot, space behind the last slot, or a new block. -/
def HasSpace (sbi : SbInfo) (dir : Inode) (name : List UInt8) (s : Fs) (slots : List Slot) : Prop :=
  ¬ Full (recLenFor name.length) slots ∨
    (slots.getLast? = none ∧ (allocBlock sbi s).1 ≠ 0) ∨
    ∃ t, slots.getLast? = some t ∧ recLenFor t.nameLen ≤ t.recLen ∧
      (recLenFor name.length ≤ t.recLen - recLenFor t.nameLen ∨ (allocBlock sbi s).1 ≠ 0 ∧
        appendBlockToInode dir.raw (dir.iSize / sbi.blockSize) (allocBlock sbi s).1 ≠ none)

theorem hasSpace_last (hfull : Full (recLenFor name.length) slots) (hget : slots.getLast? = some t) :
    HasSpace sbi dir name s slots ↔ recLenFor t.nameLen ≤ t.recLen ∧
      (recLenFor name.length ≤ t.recLen - recLenFor t.nameLen ∨ (allocBlock sbi s).1 ≠ 0 ∧
        appendBlockToInode dir.raw (dir.iSize / sbi.blockSize) (allocBlock sbi s).1 ≠ none) := by
  simp [HasSpace, hfull, hget]

/-- What `ext4_add_dir_entry` does to a directory. -/
inductive AddSpec (sbi : SbInfo) (reserved : ℕ → Prop) (dir : Inode) (ino : ℕ) (name : List UInt8)
    (s : Fs) (blocks : List (List Slot)) : ℤ × Inode × Fs → Prop
  | added {dir' : Inode} {s' : Fs} {blocks' : List (List Slot)}
      (hdir : Dir sbi reserved dir' s' blocks')
      (hinserts : Inserts name ino blocks.flatten blocks'.flatten)
      (hspace : HasSpace sbi dir name s blocks.flatten)
      (hsize : dir'.iSize ≤ dir.iSize + sbi.blockSize) :
      AddSpec sbi reserved dir ino name s blocks (0, dir', s')
  | failed {e : ℤ} {s' : Fs} (he : e = -enospc ∨ e = -eio) (hdir : Dir sbi reserved dir s' blocks)
      (hspace : ¬ HasSpace sbi dir name s blocks.flatten) :
      AddSpec sbi reserved dir ino name s blocks (e, dir, s')

/-- What an add needs of a directory: extents that can take a block, and no block if it is empty. -/
structure Growable (sbi : SbInfo) (dir : Inode) : Prop where
  size : dir.iSize < 2 ^ 32
  extents : dir.raw.extents = true → ehDepth dir.raw.iBlock = 0 →
    Extendable dir.raw.iBlock (dir.iSize / sbi.blockSize)
  first : dir.iSize = 0 → dir.raw.extents = false ∧ dir.raw.iBlock 0 = 0

namespace Dir

theorem size_div (h : Dir sbi reserved dir s blocks) :
    dir.iSize / sbi.blockSize = blocks.length := by
  rw [h.size, Nat.mul_div_cancel _ sbi.blockSize_pos]

variable (hg : Growable sbi dir) (hentry : NewEntry ino name fileType)

include hg hentry

theorem addBlock_spec (h : Dir sbi reserved dir s blocks)
    (hfull : Full (recLenFor name.length) blocks.flatten)
    (hlast : ∃ t, blocks.flatten.getLast? = some t ∧ recLenFor t.nameLen ≤ t.recLen ∧
      ¬ recLenFor name.length ≤ t.recLen - recLenFor t.nameLen) :
    AddSpec sbi reserved dir ino name s blocks (addBlock sbi dir ino name fileType s) := by
  obtain ⟨t, hget, hactual, hnot⟩ := hlast
  have hsize := hg.size
  have hdiv : dir.iSize / sbi.blockSize + 1 < 2 ^ 32 := by
    have hmin := sbi.le_blockSize
    have hle : dir.iSize / sbi.blockSize ≤ dir.iSize / 1024 := div_le_div_left hmin (by decide)
    omega
  have hspace : HasSpace sbi dir name s blocks.flatten ↔ _ := hasSpace_last hfull hget
  unfold addBlock
  rw [mod_eq_of_lt (by omega)]
  rcases allocBlock_cases h.layout.consistent with hnone | ⟨b, s', heq, ha⟩
  · rw [hnone, if_pos rfl]
    exact .failed (Or.inl rfl) h fun hyes => (hspace.mp hyes).2.elim hnot fun hyes => hyes.1
      (by rw [hnone])
  rw [heq] at hspace ⊢
  rw [if_neg ha.ne_zero]
  have hb : b < 2 ^ 32 := lt_trans ha.lt (by decide)
  have hcases : appendBlockToInode dir.raw (dir.iSize / sbi.blockSize) b = none ∨
      ∃ raw', appendBlockToInode dir.raw (dir.iSize / sbi.blockSize) b = some raw' ∧
        Appends sbi dir.raw (dir.iSize / sbi.blockSize) b raw' :=
    appendBlockToInode_cases (fun hext => (h.entries hext).2) hg.extents hdiv ha.ne_zero hb
  rcases hcases with hfail | ⟨raw', hraw, happends⟩
  · rw [hfail]
    exact .failed (Or.inl rfl) (h.allocated ha) fun hyes =>
      (hspace.mp hyes).2.elim hnot fun hyes => hyes.2 hfail
  obtain ⟨u, hu, hrec, hbytes⟩ := singleEntry_eq sbi hentry
  rw [hraw]
  rw [h.size_div] at happends
  have hlength : (slotBytes [u]).length = sbi.blockSize := by simp [hrec]
  have hdir := h.append ha happends hlength
  rw [writeAt_eq, hbytes]
  have hinserts : Inserts name ino blocks.flatten (blocks ++ [[u]]).flatten := by
    rw [flatten_append, flatten_singleton]
    exact inserts_behind hfull hu fun _ => rfl
  refine .added (by simpa using hdir) hinserts
    (hspace.mpr ⟨hactual, Or.inr ⟨ha.ne_zero, ?_⟩⟩) le_rfl
  rw [hraw]
  exact Option.some_ne_none _

theorem addFirst_spec (h : Dir sbi reserved dir s []) :
    AddSpec sbi reserved dir ino name s [] (addFirst sbi dir ino name fileType s) := by
  have hsize : dir.iSize = 0 := by rw [h.size, length_nil, zero_mul]
  obtain ⟨hext, hfirst⟩ := hg.first hsize
  have hfull : Full (recLenFor name.length) ([] : List (List Slot)).flatten := forall_mem_nil _
  unfold addFirst
  rw [hfirst]
  rcases allocBlock_cases h.layout.consistent with hnone | ⟨b, s', heq, ha⟩
  · rw [hnone, if_pos rfl]
    refine .failed (Or.inl rfl) h ?_
    rintro (hnf | ⟨-, hyes⟩ | ⟨t, hget, -⟩)
    · exact hnf hfull
    · exact hyes (by rw [hnone])
    · cases hget
  · rw [heq]
    dsimp only
    rw [if_neg ha.ne_zero]
    obtain ⟨u, hu, hrec, hbytes⟩ := singleEntry_eq sbi hentry
    have hlength : (slotBytes [u]).length = sbi.blockSize := by simp [hrec]
    have hdir := h.append ha (appends_blocks hext (by decide) ha.ne_zero) hlength
    rw [hsize, zero_add] at hdir
    rw [writeAt_eq, hbytes]
    have hinserts : Inserts name ino ([] : List (List Slot)).flatten ([] ++ [[u]]).flatten :=
      inserts_behind hfull hu fun _ => rfl
    refine .added (by simpa using hdir) hinserts (Or.inr (Or.inl ⟨rfl, ?_⟩)) (le_add_left _ _)
    rw [heq]
    exact ha.ne_zero

theorem addBehind_spec {before : List (List Slot)}
    (h : Dir sbi reserved dir s (before ++ [front ++ [t]]))
    (hfull : Full (recLenFor name.length) (before ++ [front ++ [t]]).flatten)
    (hb : mapping sbi dir.raw s.disk before.length = some b) :
    AddSpec sbi reserved dir ino name s (before ++ [front ++ [t]])
      (addBehind sbi dir ino name fileType
        ⟨s.disk.block sbi.blockSize b, b, (slotBytes front).length,
        before.length * sbi.blockSize + (slotBytes front).length⟩ s) := by
  have hat : (before ++ [front ++ [t]])[before.length]? = some (front ++ [t]) := by simp
  have hblock : s.disk.block sbi.blockSize b = slotBytes front ++ (t.bytes ++ []) := by
    obtain ⟨c, hc, hbytes⟩ := h.block _ _ hat
    cases hb.symm.trans hc
    rw [hbytes, slotBytes_append]
    rfl
  have hlen := h.length_slotBytes hat
  rw [slotBytes_append, length_append, slotBytes_cons, slotBytes_nil, append_nil,
    Slot.length_bytes] at hlen
  have hflatten : ∀ ts : List Slot,
    (before ++ [front ++ ts]).flatten = before.flatten ++ front ++ ts := by
    intro ts
    rw [flatten_append, flatten_singleton, append_assoc]
  have hget : (before ++ [front ++ [t]]).flatten.getLast? = some t := by
    rw [hflatten, List.getLast?_concat]
  unfold addBehind
  dsimp only
  rw [hblock, deNameLen_eq, deRecLen_eq]
  split
  next hsmall =>
    refine .failed (Or.inr rfl) h fun hyes => ?_
    exact absurd hsmall (not_lt.mpr ((hasSpace_last hfull hget).mp hyes).1)
  next hactual =>
    rw [not_lt] at hactual
    split
    next hfits =>
      obtain ⟨t', u, hu, hholds, hino', hrec, hstore⟩ :=
        storeEntry_split (slotBytes front) hentry hactual hfits
      have hend : before.length * sbi.blockSize + (slotBytes front).length + recLenFor t.nameLen +
          (t.recLen - recLenFor t.nameLen) = dir.iSize := by
        rw [h.size, length_append, length_singleton, succ_mul]
        omega
      rw [hend, if_neg (lt_irrefl _), append_nil, hstore, writeAt_eq]
      have hlength : (slotBytes (front ++ [t', u])).length = sbi.blockSize := by
        simp only [slotBytes_append, slotBytes_cons, slotBytes_nil, append_nil, length_append,
          Slot.length_bytes]
        omega
      have hdir := h.setBlock hb hlength
      have hbytes :
        slotBytes (front ++ [t', u]) = slotBytes front ++ (t'.bytes ++ u.bytes) := by simp
      rw [hbytes] at hdir
      refine .added hdir ?_ ((hasSpace_last hfull hget).mpr ⟨hactual, Or.inl hfits⟩)
        (le_add_right _ _)
      have hsplit :
        (before ++ [front ++ [t', u]]).flatten = before.flatten ++ front ++ [t'] ++ [u] := by
        rw [hflatten, append_assoc (before.flatten ++ front)]
        rfl
      rw [hsplit]
      refine inserts_behind hfull hu fun other => ?_
      rw [hflatten, lookup_cut hholds hino']
    next hnot => exact h.addBlock_spec hg hentry hfull ⟨t, hget, hactual, hnot⟩

theorem add_spec (h : Dir sbi reserved dir s blocks) :
    AddSpec sbi reserved dir ino name s blocks (addDirEntry sbi dir ino name fileType s) := by
  have hpos := sbi.blockSize_pos
  unfold addDirEntry
  dsimp only
  by_cases hnil : blocks = []
  · -- the only block that is looked at is not there
    subst hnil
    have hsize : dir.iSize = 0 := by rw [h.size, length_nil, zero_mul]
    obtain ⟨hext, hfirst⟩ := hg.first hsize
    have hblock : getFileBlock sbi dir.raw 0 s.disk = 0 := by
      rw [getFileBlock, hext, if_neg Bool.false_ne_true]
      exact hfirst
    have hscan :
      scanDir sbi dir.raw s.disk (recLenFor name.length) sbi.blockSize sbi.blockSize 0 none =
        .done none := by
      obtain ⟨k, hk⟩ : ∃ k, sbi.blockSize = k + 1 := ⟨sbi.blockSize - 1, by omega⟩
      have hend :
        scanDir sbi dir.raw s.disk (recLenFor name.length) sbi.blockSize k sbi.blockSize none =
          .done none := by
        cases k with
        | zero => rfl
        | succ k => exact if_pos le_rfl
      nth_rewrite 2 [hk]
      rw [scanDir, if_neg (by omega)]
      rw [Nat.zero_div, Nat.zero_mod, hblock, if_pos (Or.inl rfl), Nat.zero_add, one_mul, hend]
    rw [hsize, if_pos rfl, hscan]
    exact h.addFirst_spec hg hentry
  · have hne : dir.iSize ≠ 0 := by
      rw [h.size]
      exact mul_ne_zero (by simpa using hnil) hpos.ne'
    have hfuel : blocks.length ≤ dir.iSize := by
      rw [h.size]
      exact Nat.le_mul_of_pos_right _ hpos
    have hscan := h.scanDir_space (recLenFor name.length) blocks [] dir.iSize none rfl hfuel
      (forall_mem_nil _) fun hempty => absurd hempty hnil
    rw [← h.size, length_nil, zero_mul] at hscan
    rw [if_neg hne]
    generalize scanDir sbi dir.raw s.disk (recLenFor name.length) dir.iSize dir.iSize 0 none =
      r at hscan
    cases hscan with
    | @slot before after front back t b hblocks hfree hneed hfull hb =>
      subst hblocks
      have hat : (before ++ (front ++ t :: back) :: after)[before.length]? =
          some (front ++ t :: back) := by simp
      have hblock :
        s.disk.block sbi.blockSize b = slotBytes front ++ (t.bytes ++ slotBytes back) := by
        obtain ⟨c, hc, hbytes⟩ := h.block _ _ hat
        cases hb.symm.trans hc
        rw [hbytes, slotBytes_append, slotBytes_cons]
      have hlen := h.length_slotBytes hat
      obtain ⟨u, hu, hrec, hstore⟩ :=
        storeEntry_reuse (slotBytes front) (slotBytes back) hentry hneed
      have hlength : (slotBytes (front ++ u :: back)).length = sbi.blockSize := by
        rw [← hlen]
        simp [hrec]
      have hdir := h.setBlock hb hlength
      dsimp only
      rw [hblock, hstore, writeAt_eq]
      rw [slotBytes_append, slotBytes_cons] at hdir
      have hflatten : ∀ v : Slot, (before ++ (front ++ v :: back) :: after).flatten =
          before.flatten ++ front ++ v :: (back ++ after.flatten) := by simp
      refine .added hdir ?_ (Or.inl ?_) (le_add_right _ _)
      · rw [hflatten, hflatten]
        exact inserts_reuse hfree hneed hfull hu
      · rw [hflatten]
        intro hfull'
        exact absurd (hfull' t (by simp) hfree) (not_lt.mpr hneed)
    | @last before front t b hblocks hfull hb =>
      subst hblocks
      exact h.addBehind_spec hg hentry hfull hb

end Dir

end NoobKernel.Ext4
