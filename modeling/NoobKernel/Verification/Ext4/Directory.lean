import NoobKernel.Verification.Ext4.Holes
import NoobKernel.Verification.Ext4.Scan
import NoobKernel.Verification.Ext4.Write

/-! # Directories

A directory is a list of blocks, and each block is a list of slots that fill it. Looking up a name and
removing a name read all blocks as one list of slots. -/

namespace NoobKernel.Ext4

open Library List Nat Slot

variable {sbi : SbInfo} {reserved : ℕ → Prop} {dir : Inode} {raw : RawInode} {s : Fs}
  {d d' : Disk UInt8} {blocks before after : List (List Slot)} {slots slots' : List Slot}
  {name : List UInt8} {lb b n : ℕ}

/-- The blocks of a directory below its size lie on the device. The extents of an inode have space
for four entries. -/
structure Dir (sbi : SbInfo) (reserved : ℕ → Prop) (dir : Inode) (s : Fs)
    (blocks : List (List Slot)) : Prop where
  layout : Layout sbi reserved (fun _ : Unit => dir.raw) s
  size : dir.iSize = blocks.length * sbi.blockSize
  rawSize : dir.raw.iSize = dir.iSize
  depth : dir.raw.extents = true → ehDepth dir.raw.iBlock ≤ 1
  entries : dir.raw.extents = true → ehEntries dir.raw.iBlock ≤ 4 ∧ ehMax dir.raw.iBlock ≤ 4
  block : ∀ lb slots, blocks[lb]? = some slots → ∃ b, mapping sbi dir.raw s.disk lb = some b ∧
    s.disk.block sbi.blockSize b = slotBytes slots

/-! ## Blocks -/

theorem findInLeaf_lt {w : ℕ → ℕ} (h : findInLeaf w lb = some b) : lb < 2 ^ 32 := by
  obtain ⟨e, hfind, -⟩ := Option.map_eq_some_iff.mp h
  have hcovers := find?_some hfind
  simp only [Extent.covers, Bool.and_eq_true, decide_eq_true_eq] at hcovers
  exact hcovers.2.trans (mod_lt _ (by decide))

theorem mapping_reach (h : mapping sbi raw d lb = some b) :
    lb < if raw.extents then 2 ^ 32 else directBlocks + sbi.blockSize / 4 := by
  unfold mapping at h
  split at h
  next hext =>
    rw [if_pos hext]
    unfold extentMapping at h
    dsimp only at h
    split at h
    · cases h
    split at h
    · exact findInLeaf_lt h
    split at h
    · cases h
    · exact findInLeaf_lt h
  next hext =>
    rw [if_neg hext]
    by_contra hbeyond
    obtain ⟨hentry, hne⟩ := blockMapping_eq_some.mp h
    exact hne (hentry.symm.trans (blockEntry_beyond (not_lt.mp hbeyond)))

theorem mapping_lt (h : mapping sbi raw d lb = some b) : lb < 2 ^ 32 := by
  have hreach := mapping_reach h
  have hsize := sbi.blockSize_le
  split at hreach
  · exact hreach
  · simp only [directBlocks] at hreach
    omega

namespace Dir

section

variable (h : Dir sbi reserved dir s blocks)

include h

theorem mapped (hlb : lb < blocks.length) : ∃ b, mapping sbi dir.raw s.disk lb = some b :=
  let ⟨b, hb, _⟩ := h.block lb _ (getElem?_eq_getElem hlb)
  ⟨b, hb⟩

theorem ne_zero (hb : mapping sbi dir.raw s.disk lb = some b) : b ≠ 0 := by
  rintro rfl
  exact h.layout.not_reserved () (.data lb) 0 hb h.layout.consistent.zero

theorem ne_noBlock (hb : mapping sbi dir.raw s.disk lb = some b) : b ≠ noBlock :=
  (h.layout.lt () (.data lb) b hb).ne

theorem length_le : blocks.length ≤ 2 ^ 32 := by
  by_contra hlong
  obtain ⟨b, hb⟩ := h.mapped (not_le.mp hlong)
  exact absurd (mapping_lt hb) (lt_irrefl _)

theorem length_slotBytes (hslots : blocks[lb]? = some slots) :
    (slotBytes slots).length = sbi.blockSize := by
  obtain ⟨b, -, hb⟩ := h.block lb slots hslots
  rw [← hb, Disk.length_block]

theorem ne_nil (hslots : blocks[lb]? = some slots) : slots ≠ [] := by
  rintro rfl
  exact sbi.blockSize_pos.ne (h.length_slotBytes hslots)

theorem div_lt {a : ℕ} (ha : a < dir.iSize) : a / sbi.blockSize < blocks.length := by
  rw [h.size] at ha
  exact (div_lt_iff_lt_mul sbi.blockSize_pos).mpr ha

end

end Dir

/-! ## Reading -/

theorem slice_blocks {f : Disk UInt8} (blocks : List (List Slot)) : ∀ k,
    (∀ i slots, blocks[i]? = some slots → f.slice ((k + i) * n) n = slotBytes slots) →
    f.slice (k * n) (blocks.length * n) = slotBytes blocks.flatten := by
  induction blocks with
  | nil => simp
  | cons slots blocks ih =>
    intro k hblocks
    have hrest := ih (k + 1) fun i slots' hi => by
      rw [add_right_comm, add_assoc]
      exact hblocks (i + 1) slots' hi
    rw [length_cons, succ_mul, add_comm, Disk.slice_add, ← succ_mul, hrest,
      flatten_cons, slotBytes_append]
    exact congrArg (· ++ _) (hblocks 0 slots rfl)

theorem length_blocks (h : ∀ slots ∈ blocks, (slotBytes slots).length = n) :
    (slotBytes blocks.flatten).length = blocks.length * n := by
  induction blocks with
  | nil => simp
  | cons slots blocks ih =>
    have hrest := ih fun slots' hmem => h slots' (mem_cons_of_mem slots hmem)
    rw [flatten_cons, slotBytes_append, length_append, hrest, h slots mem_cons_self,
      length_cons, succ_mul, add_comm]

namespace Dir

section

variable (h : Dir sbi reserved dir s blocks)

include h

theorem readData_eq : readData sbi dir.raw 0 dir.iSize s.disk = .ok (slotBytes blocks.flatten) := by
  by_cases hzero : dir.iSize = 0
  · have hnil : blocks = [] := by
      have hsize := h.size.symm.trans hzero
      exact eq_nil_of_length_eq_zero ((Nat.mul_eq_zero.mp hsize).resolve_right sbi.blockSize_pos.ne')
    rw [readData, if_pos (by rw [h.rawSize, hzero]), hnil]
    rfl
  have hpos : 0 < dir.raw.iSize := by
    rw [h.rawSize]
    exact pos_of_ne_zero hzero
  have hmapped : ∀ a, a < dir.iSize → ∃ b, mapping sbi dir.raw s.disk (a / sbi.blockSize) = some b :=
    fun a ha => h.mapped (h.div_lt ha)
  have haddr : Addressable sbi dir.raw 0 dir.iSize := by
    refine ⟨h.depth, ?_, fun a _ hlt _ => ?_⟩
    · have hlen := h.length_le
      have hmul := mul_le_mul hlen sbi.blockSize_le
      rw [h.size]
      omega
    · obtain ⟨b, hb⟩ := hmapped a (by omega)
      exact mapping_reach hb
  rw [readData_mapped hpos haddr (fun lb b hb => h.ne_noBlock hb), h.rawSize, Nat.sub_zero,
    min_self, h.size, ← zero_mul sbi.blockSize, slice_blocks blocks 0]
  · intro i slots hi
    obtain ⟨b, hb, hbytes⟩ := h.block i slots hi
    have hdiv : i * sbi.blockSize / sbi.blockSize = i := Nat.mul_div_cancel i sbi.blockSize_pos
    have hmod : i * sbi.blockSize % sbi.blockSize = 0 := mul_mod_left i _
    rw [zero_add, ← slice_fileByte (by rw [hmod, Nat.sub_zero]), hdiv, hmod,
      getFileBlock_of_mapping hb, add_zero]
    exact hbytes
  · intro _ a _ hlt _ hnone
    obtain ⟨b, hb⟩ := hmapped a (by omega)
    rw [hnone] at hb
    cases hb

theorem full (slots : List Slot) (hslots : slots ∈ blocks) :
    (slotBytes slots).length = sbi.blockSize := by
  obtain ⟨lb, hlb⟩ := mem_iff_getElem?.mp hslots
  exact h.length_slotBytes hlb

theorem length_flatten : (slotBytes blocks.flatten).length = dir.iSize := by
  rw [length_blocks h.full, h.size]

theorem slots_le : blocks.flatten.length ≤ dir.iSize := by
  rw [← h.length_flatten]
  exact length_le_slotBytes _

theorem at_filled (n : ℕ) : At (filled n (slotBytes blocks.flatten)) dir.iSize 0 blocks.flatten :=
  ⟨⟨[], _, rfl, rfl⟩, by rw [h.length_flatten, zero_add]⟩

/-- `ext4_dir_lookup` finds the first slot in use for a name. -/
theorem dirLookup_eq (hname : name.length < 2 ^ 8) :
    dirLookup sbi dir.raw name s.disk = lookup name blocks.flatten := by
  unfold dirLookup
  rw [h.rawSize, h.readData_eq]
  dsimp only
  rw [h.length_flatten]
  split
  next hsmall =>
    have hnil : blocks = [] := by
      have hsize := h.size
      have hblock := sbi.le_blockSize
      simp only [direntSize] at hsmall
      by_contra hne
      have hmul := Nat.le_mul_of_pos_left sbi.blockSize (length_pos_iff.mpr hne)
      omega
    rw [hnil]
    rfl
  next => exact lookupLoop_eq hname _ 0 _ (h.at_filled _) h.slots_le

end

/-! ## Writing a block -/

theorem setBlock (h : Dir sbi reserved dir s (before ++ slots :: after))
    (hb : mapping sbi dir.raw s.disk before.length = some b)
    (hlen : (slotBytes slots').length = sbi.blockSize) :
    Dir sbi reserved dir { s with disk := s.disk.store (b * sbi.blockSize) (slotBytes slots') }
      (before ++ slots' :: after) := by
  have hother : ∀ a, a / sbi.blockSize ≠ b →
      s.disk.store (b * sbi.blockSize) (slotBytes slots') a = s.disk a := by
    intro a ha
    refine Disk.store_of_not_mem ?_
    rw [hlen]
    exact not_mem_block ha
  have hplace := h.layout.place_write (f := ()) hb hother ()
  have hmap : ∀ lb, mapping sbi dir.raw
      (s.disk.store (b * sbi.blockSize) (slotBytes slots')) lb = mapping sbi dir.raw s.disk lb :=
    fun lb => hplace (.data lb)
  refine ⟨h.layout.write (f := ()) hb hother, ?_, h.rawSize, h.depth, h.entries, ?_⟩
  · rw [h.size, length_append, length_append, length_cons, length_cons]
  · intro lb slots1 hslots
    rw [hmap]
    by_cases hlb : lb = before.length
    · subst hlb
      rw [getElem?_append_right le_rfl, Nat.sub_self] at hslots
      cases hslots
      exact ⟨b, hb, Disk.block_setBlock_self hlen⟩
    · have hold : (before ++ slots :: after)[lb]? = some slots1 := by
        rcases lt_or_gt_of_ne hlb with hlt | hgt
        · rwa [getElem?_append_left hlt] at hslots ⊢
        · obtain ⟨k, rfl⟩ : ∃ k, lb = before.length + 1 + k := ⟨lb - (before.length + 1), by omega⟩
          rw [getElem?_append_right (by omega)] at hslots ⊢
          rwa [show before.length + 1 + k - before.length = k + 1 by omega] at hslots ⊢
      obtain ⟨c, hc, hbytes⟩ := h.block lb slots1 hold
      refine ⟨c, hc, (Disk.block_setBlock_of_ne hlen ?_).trans hbytes⟩
      rintro rfl
      have hkeys := (h.layout.unique () (.data lb) () (.data before.length) b hc hb).2
      exact hlb (Key.data.inj hkeys)

theorem writeBack_dir {buf : List UInt8} (f : List Slot → List Slot)
    (hlen : ∀ slots, (slotBytes (f slots)).length = (slotBytes slots).length)
    (after : List (List Slot)) : ∀ before s, buf = slotBytes (before ++ after.map f).flatten →
    Dir sbi reserved dir s (before ++ after) →
    Dir sbi reserved dir
      { s with disk := writeBack sbi dir.raw buf (range' before.length after.length) s.disk }
      (before ++ after.map f) := by
  induction after with
  | nil => exact fun before s _ h => h
  | cons slots after ih =>
    intro before s hbuf h
    have hat : (before ++ slots :: after)[before.length]? = some slots := by simp
    obtain ⟨b, hb, -⟩ := h.block _ _ hat
    have hsize : (slotBytes (f slots)).length = sbi.blockSize :=
      (hlen slots).trans (h.length_slotBytes hat)
    have hfront : (slotBytes before.flatten).length = before.length * sbi.blockSize :=
      length_blocks fun slots' hmem => h.full slots' (mem_append_left _ hmem)
    -- the part of the buffer for this block
    have hpart :
      (buf.drop (before.length * sbi.blockSize)).take sbi.blockSize = slotBytes (f slots) := by
      rw [hbuf, flatten_append, slotBytes_append, drop_left' hfront, map_cons,
        flatten_cons, slotBytes_append, take_left' hsize]
    have hstep := h.setBlock hb hsize
    have happend : ∀ rest, before ++ f slots :: rest = before ++ [f slots] ++ rest := by simp
    rw [length_cons, range'_succ, writeBack, getFileBlock_of_mapping hb,
      if_neg (not_or.mpr ⟨h.ne_zero hb, h.ne_noBlock hb⟩), hpart, writeAt_eq, map_cons, happend]
    rw [happend] at hstep
    have hrest := ih (before ++ [f slots]) _ (by rw [hbuf, map_cons, happend]) hstep
    rwa [length_append, length_singleton] at hrest

end Dir

/-! ## Removing a name -/

theorem length_unlinked (slots : List Slot) :
    (slotBytes (slots.map (unlinked name))).length = (slotBytes slots).length := by
  induction slots with
  | nil => rfl
  | cons t slots ih =>
    have hrec : (t.unlinked name).recLen = t.recLen := by
      unfold unlinked
      split <;> rfl
    simp only [map_cons, slotBytes_cons, length_append, Slot.length_bytes, hrec, ih]

theorem any_holds (hthere : lookup name slots ≠ 0) : slots.any (holds name) = true := by
  by_contra hnone
  refine hthere (lookup_eq_zero.mpr fun t ht => ?_)
  rw [any_eq_true] at hnone
  exact Bool.eq_false_iff.mpr fun hheld => hnone ⟨t, ht, hheld⟩

theorem any_named (hholds : slots.any (holds name) = true) : slots.any (named name) = true := by
  rw [any_eq_true] at hholds ⊢
  obtain ⟨t, ht, hheld⟩ := hholds
  rw [holds, Bool.and_eq_true] at hheld
  exact ⟨t, ht, hheld.2⟩

section

variable (h : Dir sbi reserved dir s blocks) (hname : name.length < 2 ^ 8)
  (hsize : dir.iSize < 2 ^ 32)

include h hname hsize

/-- `ext4_unlink` by the slots that have the name, in use or not. -/
theorem Dir.unlink_eq :
    unlink sbi dir name s = .ok (if blocks.flatten.any (named name) then 0 else -enoent,
      if blocks.flatten.any (holds name) then
        { s with
          disk := writeBack sbi dir.raw (slotBytes (blocks.map (List.map (unlinked name))).flatten)
            (List.range blocks.length) s.disk }
      else s) := by
  have hpos := sbi.blockSize_pos
  obtain ⟨size, hbuffer⟩ : ∃ size, size = max sbi.blockSize dir.iSize := ⟨_, rfl⟩
  have hmax : (if dir.iSize < sbi.blockSize then sbi.blockSize else dir.iSize % 2 ^ 32) = size := by
    rw [mod_eq_of_lt hsize, hbuffer]
    split <;> omega
  have hloop := unlinkLoop_eq hname blocks.flatten [] dir.iSize
    (filled size (slotBytes blocks.flatten)) false false rfl
    (by rw [h.length_flatten, length_nil, zero_add]) h.slots_le
  simp only [length_nil, nil_append, Bool.false_or] at hloop
  unfold unlink
  dsimp only
  rw [hmax, if_neg (by omega), h.readData_eq]
  dsimp only
  rw [h.length_flatten, if_neg (by omega), hloop]
  dsimp only
  by_cases hholds : blocks.flatten.any (holds name) = true
  · have hblocks : 0 < blocks.length := by
      refine length_pos_iff.mpr ?_
      rintro rfl
      cases hholds
    have hfull : sbi.blockSize ≤ dir.iSize := by
      rw [h.size]
      exact Nat.le_mul_of_pos_left _ hblocks
    have hcount : (dir.iSize + sbi.blockSize - 1) / sbi.blockSize = blocks.length := by
      have hlt : (sbi.blockSize - 1) / sbi.blockSize = 0 := div_eq_of_lt (sub_lt hpos one_pos)
      rw [h.size, Nat.add_sub_assoc (show 1 ≤ sbi.blockSize from hpos), Nat.mul_comm,
        mul_add_div hpos, hlt, add_zero]
    rw [any_named hholds, hholds, if_neg Bool.true_eq_false.mp, if_pos rfl, if_pos rfl, if_pos rfl,
      hcount, hbuffer, max_eq_right hfull, h.length_flatten, Nat.sub_self, replicate_zero,
      append_nil, map_flatten]
  · rw [Bool.not_eq_true] at hholds
    cases hnamed : blocks.flatten.any (named name) <;> simp [hholds]

/-- `ext4_unlink` removes a name that is there. -/
theorem Dir.unlink_spec (hthere : lookup name blocks.flatten ≠ 0) :
    ∃ d', unlink sbi dir name s = .ok (0, { s with disk := d' }) ∧
      Dir sbi reserved dir { s with disk := d' } (blocks.map (List.map (unlinked name))) := by
  have hholds := any_holds hthere
  refine ⟨_, ?_, writeBack_dir _ length_unlinked blocks [] s rfl h⟩
  rw [h.unlink_eq hname hsize, any_named hholds, hholds, if_pos rfl, if_pos rfl, range_eq_range']
  rfl

end

/-! ## New blocks of a directory

A block at the end of a directory is found for the logical block behind the size, unless the extents
of the inode reach behind the size already or the last extent is too long to grow. -/

open Function

variable {raw' : RawInode} {s' : Fs} {w : ℕ → ℕ} {lb' : ℕ} {e : Extent} {es : List Extent}

/-! ## Extents -/

/-- The block that a list of extents gives for a logical block. -/
def findExtent (es : List Extent) (lb : ℕ) : Option ℕ := (es.find? (·.covers lb)).map (·.phys lb)

theorem findInLeaf_eq : findInLeaf w lb = findExtent (extents w) lb := rfl

theorem findExtent_append : findExtent (es ++ [e]) lb =
    (findExtent es lb).or (if e.covers lb then some (e.phys lb) else none) := by
  unfold findExtent
  rw [List.find?_append]
  cases es.find? (·.covers lb) with
  | none => cases h : e.covers lb <;> simp [h]
  | some e' => rfl

/-- The extents of an inode can take another block at the end. -/
structure Extendable (w : ℕ → ℕ) (lb : ℕ) : Prop where
  free : findInLeaf w lb = none
  len : ∀ i, i + 1 = ehEntries w → (extentAt w i).eeLen + 1 < 2 ^ 16
  fits : ∀ i, i + 1 = ehEntries w → (extentAt w i).eeBlock + (extentAt w i).eeLen < 2 ^ 32

/-- The call does not take the last block number there is, and an extent that gets longer neither
fills its 16-bit counter nor ends behind the last number. -/
structure Appendable (w : ℕ → ℕ) (lb b : ℕ) : Prop where
  lt : lb + 1 < 2 ^ 32
  grows : ∀ i, i + 1 = ehEntries w →
    ((extentAt w i).eeBlock + (extentAt w i).eeLen) % 2 ^ 32 = lb →
    ((extentAt w i).eeStart + (extentAt w i).eeLen) % 2 ^ 32 = b →
    (extentAt w i).eeLen + 1 < 2 ^ 16 ∧ (extentAt w i).eeBlock + (extentAt w i).eeLen < 2 ^ 32

theorem or_shiftLeft_high (b : ℕ) : b ||| (b / 2 ^ 16) <<< 16 = b := by
  refine eq_of_testBit_eq fun i => ?_
  rw [testBit_or, testBit_shiftLeft, testBit_div_two_pow]
  rcases lt_or_ge i 16 with h | h
  · simp [not_le.mpr h]
  · simp [h]

theorem findExtent_grow (hsum : e.eeBlock + e.eeLen = lb) (hlb : lb + 1 < 2 ^ 32)
    (hphys : (e.eeStart + e.eeLen) % 2 ^ 32 = b) (hfree : findExtent (es ++ [e]) lb = none) :
    findExtent (es ++ [{ e with eeLen := e.eeLen + 1 }]) lb' =
      if lb' = lb then some b else findExtent (es ++ [e]) lb' := by
  have hcovers : ({ e with eeLen := e.eeLen + 1 } : Extent).covers lb' =
      (e.covers lb' || decide (lb' = lb)) := by
    simp only [Extent.covers]
    rw [← add_assoc, hsum, Nat.mod_eq_of_lt hlb, Nat.mod_eq_of_lt (by omega), Bool.eq_iff_iff]
    simp only [Bool.and_eq_true, Bool.or_eq_true, decide_eq_true_eq]
    omega
  rw [findExtent_append, findExtent_append, hcovers]
  by_cases heq : lb' = lb
  · subst heq
    rw [findExtent_append, Option.or_eq_none_iff] at hfree
    have hat : ({ e with eeLen := e.eeLen + 1 } : Extent).phys lb' = b := by
      have hlen : lb' - e.eeBlock = e.eeLen := by omega
      rw [← hphys, ← hlen]
      rfl
    rw [hfree.1, hat]
    simp
  · simp only [heq, decide_false, Bool.or_false, if_false]
    rfl

theorem findExtent_new (hlb : lb + 1 < 2 ^ 32) (hb : b < 2 ^ 32) (hfree : findExtent es lb = none) :
    findExtent (es ++ [⟨lb, 1, b⟩]) lb' = if lb' = lb then some b else findExtent es lb' := by
  have hcovers : (⟨lb, 1, b⟩ : Extent).covers lb' = decide (lb' = lb) := by
    simp only [Extent.covers]
    rw [Nat.mod_eq_of_lt hlb, Bool.eq_iff_iff]
    simp only [Bool.and_eq_true, decide_eq_true_eq]
    omega
  rw [findExtent_append, hcovers]
  by_cases heq : lb' = lb
  · subst heq
    have hphys : (⟨lb', 1, b⟩ : Extent).phys lb' = b := by
      rw [Extent.phys, Nat.sub_self, Nat.add_zero, Nat.mod_eq_of_lt hb]
    rw [hfree, hphys]
    simp
  · simp [heq]

theorem extents_succ (h : ehEntries w = n + 1) :
    extents w = (List.range n).map (extentAt w) ++ [extentAt w n] := by
  rw [extents, h, range_succ, map_append, map_singleton]

theorem extents_congr {w' : ℕ → ℕ} (h : ∀ i, 3 ≤ i → i < 3 + 3 * n → w' i = w i) :
    (List.range n).map (extentAt w') = (List.range n).map (extentAt w) := by
  refine map_congr_left fun i hi => ?_
  rw [mem_range] at hi
  rw [extentAt, extentAt, h _ (by omega) (by omega), h _ (by omega) (by omega),
    h _ (by omega) (by omega)]

/-! ## The inode with the block -/

/-- The inode has got a block for a logical block, and nothing else has changed. -/
structure Appends (sbi : SbInfo) (raw : RawInode) (lb b : ℕ) (raw' : RawInode) : Prop where
  depth : raw'.extents = true → ehDepth raw'.iBlock ≤ 1
  entries : raw'.extents = true → ehEntries raw'.iBlock ≤ 4 ∧ ehMax raw'.iBlock ≤ 4
  node : ∀ i, nodeBlock raw' i = nodeBlock raw i
  mapping : ∀ d lb', mapping sbi raw' d lb' = if lb' = lb then some b else mapping sbi raw d lb'

theorem appends_blocks (hext : raw.extents = false) (hlb : lb < directBlocks) (hb : b ≠ 0) :
    Appends sbi raw lb b (raw.setBlock lb b) := by
  have hext' : (raw.setBlock lb b).extents = false := hext
  have htable : (raw.setBlock lb b).iBlock directBlocks = raw.iBlock directBlocks :=
    update_of_ne (by omega) _ _
  refine ⟨?_, ?_, fun i => ?_, fun d lb' => ?_⟩
  · rw [hext']
    exact fun h => absurd h Bool.false_ne_true
  · rw [hext']
    exact fun h => absurd h Bool.false_ne_true
  · rw [nodeBlock_of_blocks hext', nodeBlock_of_blocks hext, htable]
  · exact mapping_of_entry hext hext' hb (fun lb' => blockEntry_setBlock hlb) lb'

/-- Extents that lie in the inode itself. -/
structure Shallow (raw : RawInode) : Prop where
  extents : raw.extents = true
  depth : ehDepth raw.iBlock = 0
  max : ehMax raw.iBlock ≤ 4

theorem Shallow.appends (h : Shallow raw) (hext' : raw'.extents = true)
    (hmagic : ehMagic raw.iBlock = extentMagic) (hmagic' : ehMagic raw'.iBlock = extentMagic)
    (hone : raw'.iBlock 1 = raw.iBlock 1) (hentries : ehEntries raw'.iBlock ≤ ehMax raw.iBlock)
    (hfind : ∀ lb', findInLeaf raw'.iBlock lb' =
      if lb' = lb then some b else findInLeaf raw.iBlock lb') :
    Shallow raw' ∧ Appends sbi raw lb b raw' := by
  obtain ⟨hext, hdepth, hmax⟩ := h
  have hdepth' : ehDepth raw'.iBlock = 0 := by rw [ehDepth, hone, ← ehDepth, hdepth]
  have hmax' : ehMax raw'.iBlock = ehMax raw.iBlock := by rw [ehMax, hone, ehMax]
  refine ⟨⟨hext', hdepth', hmax' ▸ hmax⟩,
    fun _ => by omega, fun _ => ⟨by omega, by omega⟩, fun i => ?_, fun d lb' => ?_⟩
  · rw [nodeBlock, nodeBlock, if_pos hext, if_pos hext', if_neg fun h => h.1 hdepth',
      if_neg fun h => h.1 hdepth]
  · simp only [Ext4.mapping, hext, hext', if_true, extentMapping, hmagic, hmagic', hdepth, hdepth',
      ne_eq, not_true_eq_false, if_false, hfind]

theorem Shallow.appendExtent (hraw : Shallow raw) (hmagic : ehMagic raw.iBlock = extentMagic)
    (hspace : ehEntries raw.iBlock < ehMax raw.iBlock) (hfree : findInLeaf raw.iBlock lb = none)
    (h : Appendable raw.iBlock lb b) (hb : b < 2 ^ 32) :
    Shallow (appendExtent raw lb b) ∧ Appends sbi raw lb b (appendExtent raw lb b) := by
  have hmax := hraw.max
  have hmod : ehMagic raw.iBlock < 2 ^ 16 := mod_lt _ (by decide)
  unfold Ext4.appendExtent
  dsimp only
  split
  next hmerge =>
    obtain ⟨hpos, hend, hphys⟩ := hmerge
    obtain ⟨n, hn⟩ : ∃ n, ehEntries raw.iBlock = n + 1 := ⟨ehEntries raw.iBlock - 1, by omega⟩
    rw [hn, Nat.add_sub_cancel] at hend hphys ⊢
    obtain ⟨hlen, hfits⟩ := h.grows n hn.symm hend hphys
    rw [Nat.mod_eq_of_lt hfits] at hend
    set v := ((extentAt raw.iBlock n).eeLen + 1) % 2 ^ 16 + raw.iBlock (4 + 3 * n) / 2 ^ 16 * 2 ^ 16
    have hword : ∀ i, i ≠ 4 + 3 * n → (raw.setBlock (4 + 3 * n) v).iBlock i = raw.iBlock i :=
      fun i hi => update_of_ne hi _ _
    have hlast : (raw.setBlock (4 + 3 * n) v).iBlock (4 + 3 * n) = v := by simp [RawInode.setBlock]
    have hentries : ehEntries (raw.setBlock (4 + 3 * n) v).iBlock = n + 1 := by
      rw [ehEntries, hword 0 (by omega), ← ehEntries, hn]
    have hextent : extentAt (raw.setBlock (4 + 3 * n) v).iBlock n =
        { extentAt raw.iBlock n with eeLen := (extentAt raw.iBlock n).eeLen + 1 } := by
      have hlow : v % 2 ^ 16 = (extentAt raw.iBlock n).eeLen + 1 := by
        omega
      have hhigh : v / 2 ^ 16 = raw.iBlock (4 + 3 * n) / 2 ^ 16 := by
        omega
      rw [extentAt, hlast, hlow, hhigh, hword _ (by omega), hword _ (by omega)]
      rfl
    refine hraw.appends hraw.extents hmagic ?_ (hword 1 (by omega)) (by omega) ?_
    · rw [ehMagic, hword 0 (by omega), ← ehMagic, hmagic]
    · intro lb'
      have hold := extents_succ hn
      rw [findInLeaf_eq, hold] at hfree
      rw [findInLeaf_eq, findInLeaf_eq, hold, extents_succ hentries, hextent,
        extents_congr fun i _ hi => hword i (by omega)]
      exact findExtent_grow hend h.lt hphys hfree
  next hmerge =>
    set n := ehEntries raw.iBlock
    set raw' := (((raw.setBlock 0 (ehMagic raw.iBlock + (n + 1) % 2 ^ 16 * 2 ^ 16)).setBlock
      (3 + 3 * n) lb).setBlock (4 + 3 * n) (1 + b / 2 ^ 16 * 2 ^ 16)).setBlock
        (5 + 3 * n) b with hraw'
    have hword : ∀ i, i ≠ 0 → i < 3 + 3 * n → raw'.iBlock i = raw.iBlock i := by
      intro i hzero hi
      simp only [hraw', RawInode.setBlock]
      rw [update_of_ne (by omega), update_of_ne (by omega),
        update_of_ne (by omega), update_of_ne hzero]
    have hzero : raw'.iBlock 0 = ehMagic raw.iBlock + (n + 1) * 2 ^ 16 := by
      simp only [hraw', RawInode.setBlock]
      rw [update_of_ne (by omega), update_of_ne (by omega),
        update_of_ne (by omega), update_self, Nat.mod_eq_of_lt (by omega)]
    have hthree : raw'.iBlock (3 + 3 * n) = lb := by
      simp only [hraw', RawInode.setBlock]
      rw [update_of_ne (by omega), update_of_ne (by omega), update_self]
    have hfour : raw'.iBlock (4 + 3 * n) = 1 + b / 2 ^ 16 * 2 ^ 16 := by
      simp only [hraw', RawInode.setBlock]
      rw [update_of_ne (by omega), update_self]
    have hfive : raw'.iBlock (5 + 3 * n) = b := by
      simp only [hraw', RawInode.setBlock]
      rw [update_self]
    have hentries : ehEntries raw'.iBlock = n + 1 := by
      rw [ehEntries, hzero]
      omega
    have hextent : extentAt raw'.iBlock n = ⟨lb, 1, b⟩ := by
      have hlow : (1 + b / 2 ^ 16 * 2 ^ 16) % 2 ^ 16 = 1 := by omega
      have hhigh : (1 + b / 2 ^ 16 * 2 ^ 16) / 2 ^ 16 = b / 2 ^ 16 := by omega
      rw [extentAt, hthree, hfour, hfive, hlow, hhigh, or_shiftLeft_high]
    refine hraw.appends hraw.extents hmagic ?_ (hword 1 (by omega) (by omega)) (by omega) ?_
    · rw [ehMagic, hzero, ← hmagic]
      omega
    · intro lb'
      rw [findInLeaf_eq, findInLeaf_eq, extents_succ hentries, hextent,
        extents_congr fun i hi hi' => hword i (by omega) hi']
      exact findExtent_new h.lt hb hfree

theorem Shallow.append_cases (h : Shallow raw)
    (hfree : ehMagic raw.iBlock = extentMagic → findInLeaf raw.iBlock lb = none)
    (hlast : Appendable raw.iBlock lb b) (hb : b < 2 ^ 32) :
    appendBlockToInode raw lb b = none ∨
      ∃ raw', appendBlockToInode raw lb b = some raw' ∧ Shallow raw' ∧
        Appends sbi raw lb b raw' := by
  rw [appendBlockToInode, if_pos h.extents]
  split
  · exact Or.inl rfl
  next hheader =>
    rw [not_or, not_not, not_not] at hheader
    split
    · exact Or.inl rfl
    next hspace =>
      exact Or.inr ⟨_, rfl,
        h.appendExtent hheader.1 (not_le.mp hspace) (hfree hheader.1) hlast hb⟩

/-- `ext4_append_block_to_inode` gives the inode a block, or fails. -/
theorem appendBlockToInode_cases (hentries : raw.extents = true → ehMax raw.iBlock ≤ 4)
    (hext : raw.extents = true → ehDepth raw.iBlock = 0 → Extendable raw.iBlock lb)
    (hlb : lb + 1 < 2 ^ 32) (hzero : b ≠ 0) (hb : b < 2 ^ 32) :
    appendBlockToInode raw lb b = none ∨
      ∃ raw', appendBlockToInode raw lb b = some raw' ∧ Appends sbi raw lb b raw' := by
  cases hflag : raw.extents with
  | true =>
    by_cases hdepth : ehDepth raw.iBlock = 0
    · have hlast := hext hflag hdepth
      have hgrows : Appendable raw.iBlock lb b :=
        ⟨hlb, fun i hi _ _ => ⟨hlast.len i hi, hlast.fits i hi⟩⟩
      rcases Shallow.append_cases ⟨hflag, hdepth, hentries hflag⟩
        (fun _ => hlast.free) hgrows hb with
        hnone | ⟨raw', hsome, -, happends⟩
      · exact Or.inl hnone
      · exact Or.inr ⟨raw', hsome, happends⟩
    · rw [appendBlockToInode, if_pos hflag, if_pos (Or.inr hdepth)]
      exact Or.inl rfl
  | false =>
    rw [appendBlockToInode, hflag, if_neg Bool.false_ne_true]
    split
    · exact Or.inl rfl
    next hdirect => exact Or.inr ⟨_, rfl, appends_blocks hflag (not_le.mp hdirect) hzero⟩

/-! ## Runs of appends

The mapping of an inode grows by one block with each call that succeeds. -/

def appended (raw : RawInode) (lb b : ℕ) : RawInode := (appendBlockToInode raw lb b).getD raw

/-- A logical block behind those of the calls so far and behind those mapped at first. -/
structure Behind (sbi : SbInfo) (d : Disk UInt8) (raw : RawInode) (lbs : List ℕ) (lb : ℕ) :
    Prop where
  calls : ∀ lb' ∈ lbs, lb' < lb
  mapped : ∀ lb', extentMapping sbi raw d lb' ≠ none → lb' < lb

/-- A run of `ext4_append_block_to_inode` with increasing logical blocks. -/
inductive AppendRun (sbi : SbInfo) (d : Disk UInt8) (raw : RawInode) : List ℕ → RawInode → Prop
  | nil : AppendRun sbi d raw [] raw
  | call {lbs : List ℕ} {raw₁ : RawInode} {lb b : ℕ} : AppendRun sbi d raw lbs raw₁ →
      Behind sbi d raw lbs lb → b < 2 ^ 32 → Appendable raw₁.iBlock lb b →
      AppendRun sbi d raw (lb :: lbs) (appended raw₁ lb b)

/-- The extents lie in the inode, and map blocks mapped at first or by a call. -/
structure Grown (sbi : SbInfo) (d : Disk UInt8) (raw : RawInode) (lbs : List ℕ) (raw₁ : RawInode) :
    Prop where
  shallow : Shallow raw₁
  mapped : ∀ lb', extentMapping sbi raw₁ d lb' ≠ none →
    extentMapping sbi raw d lb' ≠ none ∨ lb' ∈ lbs

section

variable {lbs : List ℕ} {raw₁ : RawInode}

theorem Grown.call (h : Grown sbi d raw lbs raw₁) (hnext : Behind sbi d raw lbs lb) (hb : b < 2 ^ 32)
    (hlast : Appendable raw₁.iBlock lb b) : Shallow (appended raw₁ lb b) ∧
      ∀ lb', extentMapping sbi (appended raw₁ lb b) d lb' =
        if lb' = lb ∧ appendBlockToInode raw₁ lb b ≠ none then some b
        else extentMapping sbi raw₁ d lb' := by
  have hfree : extentMapping sbi raw₁ d lb = none := by
    by_contra hne
    rcases h.mapped lb hne with hold | hcall
    · exact absurd (hnext.mapped lb hold) (lt_irrefl lb)
    · exact absurd (hnext.calls lb hcall) (lt_irrefl lb)
  have hleaf : ehMagic raw₁.iBlock = extentMagic → findInLeaf raw₁.iBlock lb = none := by
    intro hmagic
    simpa [extentMapping, hmagic, h.shallow.depth] using hfree
  unfold appended
  rcases h.shallow.append_cases hleaf hlast hb with hnone | ⟨raw', hsome, hshallow, happends⟩
  · simp [hnone, h.shallow]
  · refine ⟨by rwa [hsome], fun lb' => ?_⟩
    have hmapping : mapping sbi raw' d lb' = _ := happends.mapping d lb'
    simpa [hsome, Ext4.mapping, h.shallow.extents, hshallow.extents] using hmapping

theorem AppendRun.grown (h : Shallow raw) (hrun : AppendRun sbi d raw lbs raw₁) :
    Grown sbi d raw lbs raw₁ := by
  induction hrun with
  | nil => exact ⟨h, fun _ => Or.inl⟩
  | @call lbs raw₁ lb b _ hnext hb hlast ih =>
    obtain ⟨hshallow, hmapping⟩ := ih.call hnext hb hlast
    refine ⟨hshallow, fun lb' hne => ?_⟩
    by_cases heq : lb' = lb
    · exact Or.inr (List.mem_cons.mpr (Or.inl heq))
    · rw [hmapping, if_neg fun hnew => heq hnew.1] at hne
      exact (ih.mapped lb' hne).imp_right (List.mem_cons_of_mem lb)

/-- Each call of a run maps its logical block to its block if it returns zero, and leaves the rest
of the mapping. -/
theorem appendBlockToInode_conservative (h : Shallow raw) (hrun : AppendRun sbi d raw lbs raw₁)
    (hnext : Behind sbi d raw lbs lb) (hb : b < 2 ^ 32) (hlast : Appendable raw₁.iBlock lb b)
    (lb' : ℕ) : findExtentBlock sbi (appended raw₁ lb b) lb' d =
      if lb' = lb ∧ appendBlockToInode raw₁ lb b ≠ none then b
      else findExtentBlock sbi raw₁ lb' d := by
  obtain ⟨-, hmapping⟩ := (hrun.grown h).call hnext hb hlast
  rw [findExtentBlock_eq, findExtentBlock_eq, hmapping]
  split <;> rfl

end

def noExtents : RawInode := ⟨0, extentsFl, fun i => [0xf30a, 4].getD i 0⟩

theorem behind_noExtents : Behind smallFs (fun _ => 0) noExtents [] lb :=
  ⟨fun _ h => absurd h List.not_mem_nil, fun _ h => absurd rfl h⟩

/-- The extent of the first call gets longer. -/
theorem appendBlockToInode_conservative_second :
    findExtentBlock smallFs (appended (appended noExtents 7 100) 8 101) 8 (fun _ => 0) = 101 := by
  have hrun : AppendRun smallFs (fun _ => 0) noExtents [7] (appended noExtents 7 100) :=
    .call .nil behind_noExtents (by decide)
      ⟨by decide, fun i hi => absurd hi (Nat.succ_ne_zero i)⟩
  have hlast : Appendable (appended noExtents 7 100).iBlock 8 101 := by
    refine ⟨by decide, fun i hi => ?_⟩
    obtain rfl : i = 0 := Nat.succ.inj hi
    decide
  exact (appendBlockToInode_conservative ⟨by decide, by decide, by decide⟩ hrun
    ⟨by decide, fun _ h => absurd rfl h⟩ (by decide) hlast 8).trans (if_pos (by decide))

/-- The last block number there is cannot be found. -/
theorem append_last_lost :
    Shallow noExtents ∧ Behind smallFs (fun _ => 0) noExtents [] (2 ^ 32 - 1) ∧
    appendBlockToInode noExtents (2 ^ 32 - 1) 100 ≠ none ∧
    findExtentBlock smallFs (appended noExtents (2 ^ 32 - 1) 100) (2 ^ 32 - 1) (fun _ => 0) =
      noBlock :=
  ⟨⟨by decide, by decide, by decide⟩, behind_noExtents, by decide, by decide⟩

/-! ## The directory with the block -/

namespace Dir

section

variable (h : Dir sbi reserved dir s blocks)
  (ha : Allocated sbi reserved (Owned sbi (fun _ : Unit => dir.raw) s.disk) s b s')

include h ha

theorem allocated : Dir sbi reserved dir s' blocks := by
  have hplace := ha.gives.place_eq h.layout ()
  refine ⟨ha.gives.layout h.layout, h.size, h.rawSize, h.depth, h.entries, fun lb slots hlb => ?_⟩
  obtain ⟨c, hc, hbytes⟩ := h.block lb slots hlb
  exact ⟨c, (hplace (.data lb)).trans hc,
    (ha.gives.block_eq h.layout ⟨(), .data lb, hc⟩).trans hbytes⟩

theorem append (hraw : Appends sbi dir.raw blocks.length b raw') {slots : List Slot}
    (hlen : (slotBytes slots).length = sbi.blockSize) :
    Dir sbi reserved (.setSize (dir.iSize + sbi.blockSize) raw')
      { s' with disk := s'.disk.store (b * sbi.blockSize) (slotBytes slots) }
        (blocks ++ [slots]) := by
  have hplace := ha.gives.place_eq h.layout ()
  have hmap : ∀ lb, mapping sbi raw' s'.disk lb =
      if lb = blocks.length then some b else mapping sbi dir.raw s.disk lb := by
    intro lb
    rw [hraw.mapping]
    exact congrArg _ (hplace (.data lb))
  have hgrow : Layout sbi reserved (update (fun _ : Unit => dir.raw) () raw') s' := by
    refine h.layout.grow ha.gives rfl (fun i c hc => Or.inl ?_) (fun _ _ => rfl) hmap
    exact (hraw.node i).symm.trans hc
  -- the size has no part in where the blocks are
  have hlayout : Layout sbi reserved
      (fun _ : Unit => (Inode.setSize (dir.iSize + sbi.blockSize) raw').raw) s' := by
    refine hgrow.of_place (fun _ k => ?_) hgrow.consistent
    cases k <;> rfl
  have hmap' : ∀ lb, mapping sbi (Inode.setSize (dir.iSize + sbi.blockSize) raw').raw s'.disk lb =
      mapping sbi raw' s'.disk lb := fun _ => rfl
  have hnew :
    mapping sbi (Inode.setSize (dir.iSize + sbi.blockSize) raw').raw s'.disk blocks.length =
      some b := by rw [hmap', hmap, if_pos rfl]
  have hother : ∀ a, a / sbi.blockSize ≠ b →
      s'.disk.store (b * sbi.blockSize) (slotBytes slots) a = s'.disk a := by
    intro a ha
    refine Disk.store_of_not_mem ?_
    rw [hlen]
    exact not_mem_block ha
  have hwrite : ∀ lb, mapping sbi (Inode.setSize (dir.iSize + sbi.blockSize) raw').raw
      (s'.disk.store (b * sbi.blockSize) (slotBytes slots)) lb = mapping sbi raw' s'.disk lb :=
    fun lb => hlayout.place_write (f := ()) hnew hother () (.data lb)
  refine ⟨hlayout.write (f := ()) hnew hother, ?_, rfl, hraw.depth, hraw.entries,
    fun lb slots' hlb => ?_⟩
  · rw [length_append, length_singleton, succ_mul, ← h.size]
    rfl
  · rw [hwrite, hmap]
    rcases lt_trichotomy lb blocks.length with hlt | heq | hgt
    · rw [List.getElem?_append_left hlt] at hlb
      obtain ⟨c, hc, hbytes⟩ := h.block lb slots' hlb
      rw [if_neg hlt.ne]
      refine ⟨c, hc, (Disk.block_setBlock_of_ne hlen ?_).trans
        ((ha.gives.block_eq h.layout ⟨(), .data lb, hc⟩).trans hbytes)⟩
      rintro rfl
      exact ha.not_owned ⟨(), .data lb, hc⟩
    · subst heq
      rw [List.getElem?_append_right le_rfl, Nat.sub_self] at hlb
      cases hlb
      exact ⟨b, if_pos rfl, Disk.block_setBlock_self hlen⟩
    · rw [List.getElem?_eq_none (by rw [length_append, length_singleton]; omega)] at hlb
      cases hlb

end

end Dir

end NoobKernel.Ext4
