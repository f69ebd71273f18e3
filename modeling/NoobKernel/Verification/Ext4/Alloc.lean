import NoobKernel.Verification.Ext4.Mapping

/-! # Allocation of blocks

`ext4_alloc_block` returns a block that no bitmap has marked. On a consistent file system such a
block is used by nothing, and only the block, its bit and the counts are written. -/

namespace NoobKernel.Ext4

open Library List Nat Disk

variable {sbi : SbInfo} {reserved owned owned' : ℕ → Prop} {s s' : Fs} {d d' : Disk UInt8}
  {bg bg' i j a b : ℕ}

/-! ## Bits -/

theorem bitSet_setBit {bitmap : List UInt8} (h : i / 8 < bitmap.length) (j : ℕ) :
    bitSet (setBit bitmap i) j = (decide (i = j) || bitSet bitmap j) := by
  unfold bitSet setBit
  by_cases hbyte : i / 8 = j / 8
  · have hget :
      (bitmap.set (i / 8) (UInt8.ofNat ((bitmap.getD (i / 8) 0).toNat ||| 1 <<< (i % 8)))).getD
        (j / 8) 0 = UInt8.ofNat ((bitmap.getD (i / 8) 0).toNat ||| 1 <<< (i % 8)) := by
      rw [← hbyte, getD_eq_getElem?_getD, List.getElem?_set_self h, Option.getD_some]
    have hlt : (bitmap.getD (i / 8) 0).toNat ||| 1 <<< (i % 8) < 2 ^ 8 := by
      refine or_lt_two_pow (UInt8.toNat_lt _) ?_
      rw [one_shiftLeft]
      exact Nat.pow_lt_pow_right (by decide) (Nat.mod_lt i (by decide))
    rw [hget, UInt8.toNat_ofNat', mod_eq_of_lt hlt, testBit_or, one_shiftLeft,
      testBit_two_pow, hbyte, Bool.or_comm]
    congr 1
    rw [decide_eq_decide]
    omega
  · rw [getD_eq_getElem?_getD, List.getElem?_set_ne hbyte, ← getD_eq_getElem?_getD,
      decide_eq_false (by rintro rfl; exact hbyte rfl), Bool.false_or]

@[simp] theorem length_setBit (bitmap : List UInt8) (i : ℕ) :
    (setBit bitmap i).length = bitmap.length := by
  simp [setBit]

/-! ## Consistent file systems -/

theorem block_congr (h : ∀ a, a / sbi.blockSize = b → d' a = d a) :
    d'.block sbi.blockSize b = d.block sbi.blockSize b :=
  slice_congr fun a hle hlt => h a ((mem_block_iff sbi.blockSize_pos).mp ⟨hle, hlt⟩)

def descOf (sbi : SbInfo) (d : Disk UInt8) (bg : ℕ) : List UInt8 :=
  d.slice (groupDescOffset sbi bg) groupDescSize

def bitmapBlock (sbi : SbInfo) (d : Disk UInt8) (bg : ℕ) : ℕ := bgBlockBitmap (descOf sbi d bg)

def bitmapOf (sbi : SbInfo) (d : Disk UInt8) (bg : ℕ) : List UInt8 :=
  d.block sbi.blockSize (bitmapBlock sbi d bg)

/-- A group that has free blocks according to its descriptor. -/
def Active (sbi : SbInfo) (d : Disk UInt8) (bg : ℕ) : Prop :=
  bg < sbi.groupsCount ∧ bgFreeBlocksCount (descOf sbi d bg) ≠ 0

def InSuper (a : ℕ) : Prop := superblockOffset ≤ a ∧ a < superblockOffset + superblockSize

def InDesc (sbi : SbInfo) (bg a : ℕ) : Prop :=
  groupDescOffset sbi bg ≤ a ∧ a < groupDescOffset sbi bg + groupDescSize

/-- The addresses that an allocation may write to besides the block: the superblock, the group
descriptors and the bitmaps. -/
inductive Bookkeeping (sbi : SbInfo) (d : Disk UInt8) (a : ℕ) : Prop
  | super (h : InSuper a)
  | desc (bg : ℕ) (hbg : bg < sbi.groupsCount) (h : InDesc sbi bg a)
  | bitmap (bg : ℕ) (hbg : Active sbi d bg) (h : a / sbi.blockSize = bitmapBlock sbi d bg)

/-- The bookkeeping lies in reserved blocks, each bitmap in a block of its own, and the bits that are
clear denote blocks of the device that are neither reserved nor owned by a file. -/
structure Consistent (sbi : SbInfo) (reserved owned : ℕ → Prop) (s : Fs) : Prop where
  sb_length : s.sb.length = superblockSize
  desc_size : groupDescSize ≤ sbi.descSize
  zero : reserved 0
  bookkeeping : ∀ a, Bookkeeping sbi s.disk a → reserved (a / sbi.blockSize)
  bitmap_super : ∀ bg a, Active sbi s.disk bg → InSuper a →
    a / sbi.blockSize ≠ bitmapBlock sbi s.disk bg
  bitmap_desc : ∀ bg bg' a, Active sbi s.disk bg → bg' < sbi.groupsCount → InDesc sbi bg' a →
    a / sbi.blockSize ≠ bitmapBlock sbi s.disk bg
  bitmap_inj : ∀ bg bg', Active sbi s.disk bg → Active sbi s.disk bg' →
    bitmapBlock sbi s.disk bg = bitmapBlock sbi s.disk bg' → bg = bg'
  free : ∀ bg i, Active sbi s.disk bg → i < searchCount sbi →
    bitSet (bitmapOf sbi s.disk bg) i = false →
    bg * sbi.blocksPerGroup + i + sbi.sFirstDataBlock < noBlock ∧
      ¬ reserved (bg * sbi.blocksPerGroup + i + sbi.sFirstDataBlock) ∧
      ¬ owned (bg * sbi.blocksPerGroup + i + sbi.sFirstDataBlock)

/-- The number of a block of a group, without the limit of a register. -/
def groupBlock (sbi : SbInfo) (bg i : ℕ) : ℕ := bg * sbi.blocksPerGroup + i + sbi.sFirstDataBlock

/-- The groups with free blocks had free blocks before, and their bitmaps are where they were. -/
def Fewer (sbi : SbInfo) (d d' : Disk UInt8) : Prop :=
  ∀ bg, Active sbi d' bg → Active sbi d bg ∧ bitmapBlock sbi d' bg = bitmapBlock sbi d bg

theorem Bookkeeping.of_fewer (h : Fewer sbi d d') (ha : Bookkeeping sbi d' a) :
    Bookkeeping sbi d a := by
  cases ha with
  | super h => exact .super h
  | desc bg hbg h => exact .desc bg hbg h
  | bitmap bg hbg ha => exact .bitmap bg (h bg hbg).1 (ha.trans (h bg hbg).2)

theorem Consistent.of_fewer (h : Consistent sbi reserved owned s) (hf : Fewer sbi s.disk s'.disk)
    (hlen : s'.sb.length = superblockSize)
    (hfree : ∀ bg i, Active sbi s.disk bg → i < searchCount sbi →
      bitSet (bitmapOf sbi s'.disk bg) i = false → bitSet (bitmapOf sbi s.disk bg) i = false ∧
        (owned' (groupBlock sbi bg i) → owned (groupBlock sbi bg i))) :
    Consistent sbi reserved owned' s' := by
  refine ⟨hlen, h.desc_size, h.zero, fun a ha => h.bookkeeping a (ha.of_fewer hf), ?_, ?_, ?_, ?_⟩
  · intro bg a hbg ha
    rw [(hf bg hbg).2]
    exact h.bitmap_super bg a (hf bg hbg).1 ha
  · intro bg bg' a hbg hbg' ha
    rw [(hf bg hbg).2]
    exact h.bitmap_desc bg bg' a (hf bg hbg).1 hbg' ha
  · intro bg bg' hbg hbg' heq
    rw [(hf bg hbg).2, (hf bg' hbg').2] at heq
    exact h.bitmap_inj bg bg' (hf bg hbg).1 (hf bg' hbg').1 heq
  · intro bg i hbg hi hclear
    obtain ⟨hold, howned⟩ := hfree bg i (hf bg hbg).1 hi hclear
    obtain ⟨hlt, hreserved, hnot⟩ := h.free bg i (hf bg hbg).1 hi hold
    exact ⟨hlt, hreserved, fun hb => hnot (howned hb)⟩

section Congr

variable (h : Consistent sbi reserved owned s)
  (hd : ∀ a, reserved (a / sbi.blockSize) → d' a = s.disk a)

include h hd

theorem Consistent.descOf_eq (hbg : bg < sbi.groupsCount) :
    descOf sbi d' bg = descOf sbi s.disk bg :=
  slice_congr fun a hle hlt => hd a (h.bookkeeping a (.desc bg hbg ⟨hle, hlt⟩))

theorem Consistent.fewer : Fewer sbi s.disk d' := by
  intro bg hbg
  have hdesc := h.descOf_eq hd hbg.1
  unfold Active at *
  exact ⟨hdesc ▸ hbg, congrArg bgBlockBitmap hdesc⟩

theorem Consistent.congr (howned : ∀ b, owned' b → owned b) :
    Consistent sbi reserved owned' { s with disk := d' } := by
  refine h.of_fewer (h.fewer hd) h.sb_length fun bg i hbg hi hclear => ⟨?_, howned _⟩
  have hbitmap : bitmapOf sbi d' bg = bitmapOf sbi s.disk bg := by
    rw [bitmapOf, bitmapBlock, h.descOf_eq hd hbg.1]
    exact block_congr fun a ha => hd a (h.bookkeeping a (.bitmap bg hbg ha))
  exact hbitmap ▸ hclear

end Congr

theorem Consistent.mono (h : Consistent sbi reserved owned s) (howned : ∀ b, owned' b → owned b) :
    Consistent sbi reserved owned' s :=
  h.congr (fun _ _ => rfl) howned

/-! ## A free block -/

theorem InDesc.not_super (h : InDesc sbi bg a) : ¬ InSuper a := by
  unfold InDesc groupDescOffset at h
  unfold InSuper
  have hsize := sbi.le_blockSize
  simp only [superblockOffset, superblockSize, groupDescSize] at h ⊢
  split at h
  next hlarge =>
    have hlarge' := sbi.le_blockSize_of_lt hlarge
    omega
  · omega

theorem InDesc.unique (hsize : groupDescSize ≤ sbi.descSize) (h : InDesc sbi bg a)
    (h' : InDesc sbi bg' a) : bg = bg' := by
  unfold InDesc groupDescOffset at h h'
  by_contra hne
  rcases lt_or_gt_of_ne hne with hlt | hgt
  · have hmul : (bg + 1) * sbi.descSize ≤ bg' * sbi.descSize := mul_le_mul_right _ hlt
    rw [succ_mul] at hmul
    omega
  · have hmul : (bg' + 1) * sbi.descSize ≤ bg * sbi.descSize := mul_le_mul_right _ hgt
    rw [succ_mul] at hmul
    omega

/-- The descriptor with one free block less. -/
def takenDesc (bgd : List UInt8) : List UInt8 := patch 12 (toBytes 2 (bgFreeBlocksCount bgd - 1)) bgd

@[simp] theorem length_descOf : (descOf sbi d bg).length = groupDescSize := length_slice

theorem count_fits (n : ℕ) : 12 + (toBytes 2 n).length ≤ (descOf sbi d bg).length := by
  rw [length_descOf, length_toBytes]
  decide

theorem length_takenDesc : (takenDesc (descOf sbi d bg)).length = groupDescSize := by
  rw [takenDesc, length_patch (count_fits _), length_descOf]

theorem bgBlockBitmap_takenDesc :
    bgBlockBitmap (takenDesc (descOf sbi d bg)) = bgBlockBitmap (descOf sbi d bg) :=
  field_patch_of_disjoint (count_fits _) (Or.inl (by decide))

theorem bgFreeBlocksCount_takenDesc :
    bgFreeBlocksCount (takenDesc (descOf sbi d bg)) = bgFreeBlocksCount (descOf sbi d bg) - 1 := by
  have hlt : bgFreeBlocksCount (descOf sbi d bg) < 256 ^ 2 := field_lt
  have hfits : 12 + 2 ≤ (descOf sbi d bg).length := by
    rw [length_descOf]
    decide
  rw [bgFreeBlocksCount, takenDesc, field_patch_self hfits, mod_eq_of_lt (by omega)]

/-- What is known of a group and a bit when `ext4_alloc_block` takes a block. -/
structure Takes (sbi : SbInfo) (s : Fs) (bg i : ℕ) : Prop where
  active : Active sbi s.disk bg
  index : i < searchCount sbi
  clear : bitSet (bitmapOf sbi s.disk bg) i = false

def taken (sbi : SbInfo) (bg i : ℕ) (s : Fs) : Fs :=
  takeBlock sbi bg i (descOf sbi s.disk bg) (bitmapOf sbi s.disk bg) s

section

variable (h : Consistent sbi reserved owned s) (ht : Takes sbi s bg i)

include h ht

theorem Takes.blockNumber_eq : blockNumber sbi bg i = groupBlock sbi bg i := by
  refine mod_eq_of_lt ?_
  have hlt := (h.free bg i ht.active ht.index ht.clear).1
  simp only [noBlock] at hlt
  omega

theorem Takes.not_reserved : ¬ reserved (groupBlock sbi bg i) :=
  (h.free bg i ht.active ht.index ht.clear).2.1

theorem Takes.taken_disk : (taken sbi bg i s).disk =
    store (groupBlock sbi bg i * sbi.blockSize) (List.replicate sbi.blockSize 0)
      (store superblockOffset (taken sbi bg i s).sb
        (store (groupDescOffset sbi bg) (takenDesc (descOf sbi s.disk bg))
          (store (bitmapBlock sbi s.disk bg * sbi.blockSize)
            (setBit (bitmapOf sbi s.disk bg) i) s.disk))) := by
  rw [← ht.blockNumber_eq h]
  simp only [taken, takeBlock, writeGroupDesc, writeAt_eq]
  rfl

omit ht in
theorem length_taken_sb : (taken sbi bg i s).sb.length = superblockSize := by
  have hfits : 12 + (toBytes 4 (sFreeBlocksCount s.sb + (2 ^ 32 - 1))).length ≤ s.sb.length := by
    rw [h.sb_length, length_toBytes]
    decide
  exact (length_patch hfits).trans h.sb_length

omit h ht in
theorem not_mem_block (h : a / sbi.blockSize ≠ b) :
    ¬ (b * sbi.blockSize ≤ a ∧ a < b * sbi.blockSize + sbi.blockSize) := by
  rwa [mem_block_iff sbi.blockSize_pos]

theorem Takes.disk_of_other (hb : a / sbi.blockSize ≠ groupBlock sbi bg i) (hsuper : ¬ InSuper a)
    (hdesc : ¬ InDesc sbi bg a) (hbitmap : a / sbi.blockSize ≠ bitmapBlock sbi s.disk bg) :
    (taken sbi bg i s).disk a = s.disk a := by
  rw [ht.taken_disk h, store_of_not_mem, store_of_not_mem, store_of_not_mem,
    store_of_not_mem]
  · rw [length_setBit, bitmapOf, length_block]
    exact not_mem_block hbitmap
  · rwa [length_takenDesc]
  · rwa [length_taken_sb h]
  · rw [length_replicate]
    exact not_mem_block hb

theorem Takes.descOf_ne (hbg' : bg' < sbi.groupsCount) (hne : bg' ≠ bg) :
    descOf sbi (taken sbi bg i s).disk bg' = descOf sbi s.disk bg' := by
  refine slice_congr fun a hle hlt => ?_
  have hdesc : InDesc sbi bg' a := ⟨hle, hlt⟩
  refine ht.disk_of_other h ?_ hdesc.not_super ?_ (h.bitmap_desc bg bg' a ht.active hbg' hdesc)
  · intro heq
    exact ht.not_reserved h (heq ▸ h.bookkeeping a (.desc bg' hbg' hdesc))
  · exact fun hdesc' => hne (hdesc.unique h.desc_size hdesc')

theorem Takes.descOf_self :
    descOf sbi (taken sbi bg i s).disk bg = takenDesc (descOf sbi s.disk bg) := by
  let d := store (bitmapBlock sbi s.disk bg * sbi.blockSize)
    (setBit (bitmapOf sbi s.disk bg) i) s.disk
  refine (slice_congr fun a hle hlt => ?_).trans (slice_store_eq (d := d) length_takenDesc)
  have hdesc : InDesc sbi bg a := ⟨hle, hlt⟩
  rw [ht.taken_disk h, store_of_not_mem, store_of_not_mem]
  · rw [length_taken_sb h]
    exact hdesc.not_super
  · rw [length_replicate]
    refine not_mem_block fun heq => ht.not_reserved h ?_
    exact heq ▸ h.bookkeeping a (.desc bg ht.active.1 hdesc)

theorem Takes.bitmapBlock_eq (hbg' : bg' < sbi.groupsCount) :
    bitmapBlock sbi (taken sbi bg i s).disk bg' = bitmapBlock sbi s.disk bg' := by
  unfold bitmapBlock
  by_cases hne : bg' = bg
  · rw [hne, ht.descOf_self h, bgBlockBitmap_takenDesc]
  · rw [ht.descOf_ne h hbg' hne]

theorem Takes.fewer : Fewer sbi s.disk (taken sbi bg i s).disk := by
  intro bg' hbg'
  refine ⟨⟨hbg'.1, fun hzero => hbg'.2 ?_⟩, ht.bitmapBlock_eq h hbg'.1⟩
  by_cases hne : bg' = bg
  · rw [hne] at hzero ⊢
    rw [ht.descOf_self h, bgFreeBlocksCount_takenDesc, hzero]
  · rw [ht.descOf_ne h hbg'.1 hne, hzero]

theorem Takes.bitmapOf_ne (hbg' : Active sbi s.disk bg') (hne : bg' ≠ bg) :
    bitmapOf sbi (taken sbi bg i s).disk bg' = bitmapOf sbi s.disk bg' := by
  rw [bitmapOf, ht.bitmapBlock_eq h hbg'.1]
  refine block_congr fun a ha => ht.disk_of_other h ?_ ?_ ?_ ?_
  · exact fun heq => ht.not_reserved h (heq ▸ h.bookkeeping a (.bitmap bg' hbg' ha))
  · exact fun hsuper => h.bitmap_super bg' a hbg' hsuper ha
  · exact fun hdesc => h.bitmap_desc bg' bg a hbg' ht.active.1 hdesc ha
  · exact fun heq => hne (h.bitmap_inj bg' bg hbg' ht.active (ha.symm.trans heq))

theorem Takes.bitmapOf_self :
    bitmapOf sbi (taken sbi bg i s).disk bg = setBit (bitmapOf sbi s.disk bg) i := by
  have hlen : (setBit (bitmapOf sbi s.disk bg) i).length = sbi.blockSize := by
    rw [length_setBit, bitmapOf, length_block]
  rw [bitmapOf, ht.bitmapBlock_eq h ht.active.1]
  refine (block_congr fun a ha => ?_).trans (slice_store_eq (d := s.disk) hlen)
  rw [ht.taken_disk h, store_of_not_mem, store_of_not_mem, store_of_not_mem]
  · rw [length_takenDesc]
    exact fun hdesc => h.bitmap_desc bg bg a ht.active ht.active.1 hdesc ha
  · rw [length_taken_sb h]
    exact fun hsuper => h.bitmap_super bg a ht.active hsuper ha
  · rw [length_replicate]
    refine not_mem_block fun heq => ht.not_reserved h ?_
    exact heq ▸ h.bookkeeping a (.bitmap bg ht.active ha)

omit h ht in
theorem groupBlock_inj (hi : i < searchCount sbi) (hj : j < searchCount sbi)
    (heq : groupBlock sbi bg i = groupBlock sbi bg' j) : bg = bg' ∧ i = j := by
  have hi' : i < sbi.blocksPerGroup := lt_of_lt_of_le hi (min_le_left _ _)
  have hj' : j < sbi.blocksPerGroup := lt_of_lt_of_le hj (min_le_left _ _)
  have hsum : i + sbi.blocksPerGroup * bg = j + sbi.blocksPerGroup * bg' := by
    unfold groupBlock at heq
    rw [mul_comm bg, mul_comm bg'] at heq
    omega
  have hmod := congrArg (· % sbi.blocksPerGroup) hsum
  simp only [add_mul_mod_self_left, mod_eq_of_lt hi', mod_eq_of_lt hj'] at hmod
  subst hmod
  refine ⟨Nat.eq_of_mul_eq_mul_left (by omega : 0 < sbi.blocksPerGroup) (by omega), rfl⟩

theorem Takes.consistent : Consistent sbi reserved (fun b => owned b ∨ b = groupBlock sbi bg i)
    (taken sbi bg i s) := by
  refine h.of_fewer (ht.fewer h) (length_taken_sb h) fun bg' j hbg' hj hclear => ?_
  have hold : bitSet (bitmapOf sbi s.disk bg') j = false ∧ (bg' = bg → i ≠ j) := by
    by_cases hne : bg' = bg
    · subst hne
      have hbyte : i / 8 < (bitmapOf sbi s.disk bg').length := by
        have hindex := lt_of_lt_of_le ht.index (min_le_right _ _)
        rw [bitmapOf, length_block]
        omega
      rw [ht.bitmapOf_self h, bitSet_setBit hbyte, Bool.or_eq_false_iff,
        decide_eq_false_iff_not] at hclear
      exact ⟨hclear.2, fun _ => hclear.1⟩
    · rw [ht.bitmapOf_ne h hbg' hne] at hclear
      exact ⟨hclear, fun heq => absurd heq hne⟩
  refine ⟨hold.1, fun hb => hb.resolve_right fun heq => ?_⟩
  obtain ⟨hbg'', hij⟩ := groupBlock_inj hj ht.index heq
  exact hold.2 hbg'' hij.symm

end

/-! ## The search -/

/-- A block has been allocated. -/
structure Allocated (sbi : SbInfo) (reserved owned : ℕ → Prop) (s : Fs) (b : ℕ) (s' : Fs) :
    Prop where
  ne_zero : b ≠ 0
  lt : b < noBlock
  not_reserved : ¬ reserved b
  not_owned : ¬ owned b
  consistent : Consistent sbi reserved (fun c => owned c ∨ c = b) s'
  zeros : s'.disk.block sbi.blockSize b = List.replicate sbi.blockSize 0
  frame : ∀ a, a / sbi.blockSize ≠ b → ¬ Bookkeeping sbi s.disk a → s'.disk a = s.disk a
  bookkeeping : ∀ a, Bookkeeping sbi s'.disk a → Bookkeeping sbi s.disk a

section

variable (h : Consistent sbi reserved owned s)

include h

theorem Takes.allocated (ht : Takes sbi s bg i) :
    Allocated sbi reserved owned s (blockNumber sbi bg i) (taken sbi bg i s) := by
  obtain ⟨hlt, hreserved, hnot⟩ := h.free bg i ht.active ht.index ht.clear
  rw [ht.blockNumber_eq h]
  refine ⟨?_, hlt, hreserved, hnot, ht.consistent h, ?_, ?_, fun a => .of_fewer (ht.fewer h)⟩
  · intro hzero
    exact ht.not_reserved h (hzero ▸ h.zero)
  · rw [ht.taken_disk h]
    exact block_setBlock_self length_replicate
  · intro a ha hbooks
    refine ht.disk_of_other h ha (fun hsuper => hbooks (.super hsuper)) ?_ ?_
    · exact fun hdesc => hbooks (.desc bg ht.active.1 hdesc)
    · exact fun hbitmap => hbooks (.bitmap bg ht.active hbitmap)

theorem allocGroup_cases (hbg : bg < sbi.groupsCount) :
    allocGroup sbi bg s = none ∨
      ∃ b s', allocGroup sbi bg s = some (b, s') ∧ Allocated sbi reserved owned s b s' := by
  simp only [allocGroup, readGroupDesc, readAt_eq]
  split
  · exact Or.inl rfl
  next hcount =>
    cases hfind :
      (List.range (searchCount sbi)).find? fun i => !bitSet (bitmapOf sbi s.disk bg) i with
    | none => exact Or.inl (congrArg _ hfind)
    | some i =>
      refine Or.inr ⟨_, _, congrArg _ hfind, Takes.allocated h ⟨⟨hbg, hcount⟩, ?_, ?_⟩⟩
      · exact mem_range.mp (mem_of_find?_eq_some hfind)
      · simpa using List.find?_some hfind

theorem allocLoop_cases (bgs : List ℕ) :
    (∀ bg ∈ bgs, bg < sbi.groupsCount) → allocLoop sbi bgs s = (0, s) ∨
      ∃ b s', allocLoop sbi bgs s = (b, s') ∧ Allocated sbi reserved owned s b s' := by
  induction bgs with
  | nil => exact fun _ => Or.inl rfl
  | cons bg bgs ih =>
    intro hall
    rw [allocLoop]
    rcases allocGroup_cases h (hall bg mem_cons_self) with hnone | ⟨b, s', hsome, ha⟩
    · rw [hnone, Option.getD_none]
      exact ih fun bg' hbg' => hall bg' (mem_cons_of_mem bg hbg')
    · rw [hsome, Option.getD_some]
      exact Or.inr ⟨b, s', rfl, ha⟩

/-- `ext4_alloc_block` changes nothing, or allocates a block. -/
theorem allocBlock_cases :
    allocBlock sbi s = (0, s) ∨
      ∃ b s', allocBlock sbi s = (b, s') ∧ Allocated sbi reserved owned s b s' :=
  allocLoop_cases h _ fun _ hbg => mem_range.mp hbg

end

theorem Allocated.block_eq (h : Consistent sbi reserved owned' s)
    (ha : Allocated sbi reserved owned s b s') {c : ℕ} (hc : ¬ reserved c) (hne : c ≠ b) :
    s'.disk.block sbi.blockSize c = s.disk.block sbi.blockSize c := by
  refine block_congr fun a hblock => ?_
  subst hblock
  exact ha.frame a hne fun hbooks => hc (h.bookkeeping a hbooks)

/-! ## Files side by side

The files of a family own their blocks alone: no block belongs to two files, or to one file twice,
or is reserved. What a file gets is a block that nobody owns. -/

open Function

variable {ι : Type*} {raws raws' : ι → RawInode} {raw : RawInode} {f : ι} {k : Key} {lb lb' : ℕ}

/-- The blocks of all files. -/
def Owned (sbi : SbInfo) (raws : ι → RawInode) (d : Disk UInt8) (b : ℕ) : Prop :=
  ∃ f, Belongs sbi (raws f) d b

structure Layout (sbi : SbInfo) (reserved : ℕ → Prop) (raws : ι → RawInode) (s : Fs) : Prop where
  consistent : Consistent sbi reserved (Owned sbi raws s.disk) s
  unique : ∀ f k f' k' b, place sbi (raws f) s.disk k = some b →
    place sbi (raws f') s.disk k' = some b → f = f' ∧ k = k'
  not_reserved : ∀ f k b, place sbi (raws f) s.disk k = some b → ¬ reserved b
  lt : ∀ f k b, place sbi (raws f) s.disk k = some b → b < noBlock

theorem place_congr (h : ∀ i b, nodeBlock raw i = some b →
    d'.block sbi.blockSize b = d.block sbi.blockSize b) (k : Key) :
    place sbi raw d' k = place sbi raw d k := by
  cases k with
  | data lb => exact mapping_congr h
  | node i => rfl

section

variable (h : Layout sbi reserved raws s)

include h

theorem Layout.attach (new : Key → ℕ → Prop)
    (hplace : ∀ f' k b, place sbi (raws' f') s'.disk k = some b →
      place sbi (raws f') s.disk k = some b ∨ f' = f ∧ new k b)
    (hfresh : ∀ k b, new k b → ¬ Owned sbi raws s.disk b ∧ ¬ reserved b ∧ b < noBlock)
    (hnew : ∀ k k' b, new k b → new k' b → k = k')
    (hcons : Consistent sbi reserved (fun b => Owned sbi raws s.disk b ∨ ∃ k, new k b) s') :
    Layout sbi reserved raws' s' := by
  have hnot : ∀ f' k b, place sbi (raws f') s.disk k = some b → ∀ k', ¬ new k' b :=
    fun f' k b hb k' hk' => (hfresh k' b hk').1 ⟨f', k, hb⟩
  refine ⟨hcons.mono ?_, ?_, ?_, ?_⟩
  · rintro b ⟨f', k, hb⟩
    rcases hplace f' k b hb with hold | ⟨-, hk⟩
    · exact Or.inl ⟨f', k, hold⟩
    · exact Or.inr ⟨k, hk⟩
  · intro f1 k1 f2 k2 b h1 h2
    rcases hplace f1 k1 b h1 with hold1 | ⟨rfl, hk1⟩
    · rcases hplace f2 k2 b h2 with hold2 | ⟨-, hk2⟩
      · exact h.unique f1 k1 f2 k2 b hold1 hold2
      · exact absurd hk2 (hnot f1 k1 b hold1 k2)
    · rcases hplace f2 k2 b h2 with hold2 | ⟨rfl, hk2⟩
      · exact absurd hk1 (hnot f2 k2 b hold2 k1)
      · exact ⟨rfl, hnew k1 k2 b hk1 hk2⟩
  · intro f' k b hb
    rcases hplace f' k b hb with hold | ⟨-, hk⟩
    · exact h.not_reserved f' k b hold
    · exact (hfresh k b hk).2.1
  · intro f' k b hb
    rcases hplace f' k b hb with hold | ⟨-, hk⟩
    · exact h.lt f' k b hold
    · exact (hfresh k b hk).2.2

theorem Layout.of_place (hplace : ∀ f k, place sbi (raws' f) s'.disk k = place sbi (raws f) s.disk k)
    (hcons : Consistent sbi reserved (Owned sbi raws s.disk) s') : Layout sbi reserved raws' s' := by
  refine ⟨hcons.mono ?_, ?_, ?_, ?_⟩
  · rintro b ⟨f, k, hb⟩
    exact ⟨f, k, (hplace f k).symm.trans hb⟩
  · simpa only [hplace] using h.unique
  · simpa only [hplace] using h.not_reserved
  · simpa only [hplace] using h.lt

section

variable (hb : place sbi (raws f) s.disk (.data lb) = some b)
  (hd : ∀ a, a / sbi.blockSize ≠ b → d' a = s.disk a)

include hb hd

theorem Layout.place_write (f' : ι) (k : Key) :
    place sbi (raws f') d' k = place sbi (raws f') s.disk k := by
  refine place_congr (fun i c hc => block_congr fun a ha => hd a ?_) k
  intro heq
  rw [ha] at heq
  subst heq
  have hkeys := (h.unique f' (.node i) f (.data lb) c hc hb).2
  cases hkeys

theorem Layout.write : Layout sbi reserved raws { s with disk := d' } := by
  refine h.of_place (h.place_write hb hd) (h.consistent.congr (fun a ha => hd a ?_) fun _ => id)
  exact fun heq => h.not_reserved f _ b hb (heq ▸ ha)

end

end

/-! ## Allocation -/

/-- Blocks have been allocated that no file has yet. -/
structure Gives (sbi : SbInfo) (reserved : ℕ → Prop) (raws : ι → RawInode) (s : Fs) (new : ℕ → Prop)
    (s' : Fs) : Prop where
  fresh : ∀ c, new c → ¬ Owned sbi raws s.disk c ∧ ¬ reserved c ∧ c < noBlock
  consistent : Consistent sbi reserved (fun c => Owned sbi raws s.disk c ∨ new c) s'
  frame : ∀ a, ¬ new (a / sbi.blockSize) → ¬ Bookkeeping sbi s.disk a → s'.disk a = s.disk a
  bookkeeping : ∀ a, Bookkeeping sbi s'.disk a → Bookkeeping sbi s.disk a

theorem Allocated.gives (ha : Allocated sbi reserved (Owned sbi raws s.disk) s b s') :
    Gives sbi reserved raws s (· = b) s' := by
  refine ⟨?_, ha.consistent, ha.frame, ha.bookkeeping⟩
  rintro c rfl
  exact ⟨ha.not_owned, ha.not_reserved, ha.lt⟩

section

variable {new : ℕ → Prop} (hg : Gives sbi reserved raws s new s')

include hg

theorem Gives.allocated {s2 : Fs}
    (ha : Allocated sbi reserved (fun c => Owned sbi raws s.disk c ∨ new c) s' b s2) :
    Gives sbi reserved raws s (fun c => new c ∨ c = b) s2 := by
  refine ⟨?_, ha.consistent.mono fun c hc => or_assoc.mpr hc, fun a hne hbooks => ?_,
    fun a hb => hg.bookkeeping a (ha.bookkeeping a hb)⟩
  · rintro c (hc | rfl)
    · exact hg.fresh c hc
    · exact ⟨fun hc => ha.not_owned (Or.inl hc), ha.not_reserved, ha.lt⟩
  · rw [ha.frame a (fun h => hne (Or.inr h)) fun hb => hbooks (hg.bookkeeping a hb),
      hg.frame a (fun h => hne (Or.inl h)) hbooks]

variable (h : Layout sbi reserved raws s)

include h

theorem Gives.block_eq {c : ℕ} (hc : Owned sbi raws s.disk c) :
    s'.disk.block sbi.blockSize c = s.disk.block sbi.blockSize c := by
  refine block_congr fun a ha => hg.frame a (fun hnew => (hg.fresh _ hnew).1 (ha ▸ hc))
    fun hbooks => ?_
  obtain ⟨f, k, hk⟩ := hc
  exact h.not_reserved f k c hk (ha ▸ h.consistent.bookkeeping a hbooks)

theorem Gives.place_eq (f : ι) (k : Key) :
    place sbi (raws f) s'.disk k = place sbi (raws f) s.disk k :=
  place_congr (fun i _ hc => hg.block_eq h ⟨f, .node i, hc⟩) k

theorem Gives.layout : Layout sbi reserved raws s' :=
  h.of_place (hg.place_eq h) (hg.consistent.mono fun _ => Or.inl)

end

/-! ## Entries -/

theorem word_patch {buf : List UInt8} (hi : 4 * i + 4 ≤ buf.length) (hb : b < 2 ^ 32) (j : ℕ) :
    word (patch (4 * i) (toBytes 4 b) buf) j = if j = i then b else word buf j := by
  unfold word
  split
  next heq =>
    rw [heq, field_patch_self hi, Nat.mod_eq_of_lt (show b < 256 ^ 4 from hb)]
  next hne =>
    refine field_patch_of_disjoint (by rwa [length_toBytes]) ?_
    rw [length_toBytes]
    omega

theorem mapping_of_blocks (h : raw.extents = false) :
    mapping sbi raw d lb = blockMapping sbi raw d lb := by
  rw [mapping, h, if_neg Bool.false_ne_true]

theorem nodeBlock_of_blocks (h : raw.extents = false) :
    nodeBlock raw i =
      if i = 0 ∧ raw.iBlock directBlocks ≠ 0 then some (raw.iBlock directBlocks) else none := by
  rw [nodeBlock, h, if_neg Bool.false_ne_true]

theorem blockEntry_setBlock (hlb : lb < directBlocks) :
    blockEntry sbi (raw.setBlock lb b) d lb' = if lb' = lb then b else blockEntry sbi raw d lb' := by
  have htable : (raw.setBlock lb b).iBlock directBlocks = raw.iBlock directBlocks :=
    update_of_ne (by omega) _ _
  unfold blockEntry
  rw [htable]
  by_cases heq : lb' = lb
  · rw [if_pos heq, heq, if_pos hlb]
    exact update_self ..
  · have hentry : (raw.setBlock lb b).iBlock lb' = raw.iBlock lb' := update_of_ne heq _ _
    rw [if_neg heq, hentry]

theorem blockEntry_newTable {t : ℕ} (hnone : raw.iBlock directBlocks = 0)
    (hzeros : d'.block sbi.blockSize t = List.replicate sbi.blockSize 0) :
    blockEntry sbi (raw.setBlock directBlocks t) d' lb' = blockEntry sbi raw d lb' := by
  unfold blockEntry
  split
  next hlb => exact update_of_ne (by omega) _ _
  next hlb =>
    have htable : (raw.setBlock directBlocks t).iBlock directBlocks = t := by
      simp [RawInode.setBlock]
    have hold : ¬ (lb' - directBlocks < sbi.blockSize / 4 ∧ raw.iBlock directBlocks ≠ 0) :=
      fun hin => hin.2 hnone
    rw [if_neg hold, htable, hzeros, word, field_replicate_zero, ite_self]

theorem blockEntry_setTableEntry (htable : raw.iBlock directBlocks ≠ 0) (hle : directBlocks ≤ lb)
    (hlt : lb < directBlocks + sbi.blockSize / 4) (hb : b < 2 ^ 32) :
    blockEntry sbi raw (setTableEntry sbi (raw.iBlock directBlocks) (lb - directBlocks) b d) lb' =
      if lb' = lb then b else blockEntry sbi raw d lb' := by
  have hfits : 4 * (lb - directBlocks) + 4 ≤ sbi.blockSize := by
    omega
  have hblock : (setTableEntry sbi (raw.iBlock directBlocks) (lb - directBlocks) b d).block
      sbi.blockSize (raw.iBlock directBlocks) =
      patch (4 * (lb - directBlocks)) (toBytes 4 b)
        (d.block sbi.blockSize (raw.iBlock directBlocks)) := by
    rw [setTableEntry, writeAt_eq, readAt_eq]
    exact Disk.block_setBlock_self (by rw [length_patch (by simpa using hfits), Disk.length_slice])
  unfold blockEntry
  rw [hblock]
  by_cases hdirect : lb' < directBlocks
  · rw [if_pos hdirect, if_pos hdirect, if_neg (by omega)]
  rw [if_neg hdirect, if_neg hdirect]
  by_cases hin : lb' - directBlocks < sbi.blockSize / 4 ∧ raw.iBlock directBlocks ≠ 0
  · rw [if_pos hin, if_pos hin, word_patch (by simpa using hfits) hb]
    by_cases heq : lb' = lb
    · rw [if_pos heq, heq, if_pos rfl]
    · rw [if_neg heq, if_neg (by omega)]
  · rw [if_neg hin, if_neg hin, if_neg]
    rintro rfl
    exact hin ⟨by omega, htable⟩

theorem setTableEntry_other {t : ℕ} (hi : 4 * i + 4 ≤ sbi.blockSize) (ha : a / sbi.blockSize ≠ t) :
    setTableEntry sbi t i b d a = d a := by
  rw [setTableEntry, writeAt_eq, readAt_eq]
  refine Disk.store_of_not_mem ?_
  rw [length_patch (by simpa using hi), Disk.length_slice]
  exact not_mem_block ha

end NoobKernel.Ext4
