import NoobKernel.Verification.Ext4.Alloc

/-! # Blocks for a write

A write to a logical block without a block of the device allocates one, and a table if the entry has
no place in the inode. All other blocks of all files stay where they are. -/

namespace NoobKernel.Ext4

open Library Function

variable {ι : Type*} [DecidableEq ι] {sbi : SbInfo} {reserved owned : ℕ → Prop} {raws : ι → RawInode}
  {raw' raw : RawInode} {s s' : Fs} {f : ι} {a b c lb t : ℕ}

/-- The file `f` may have got a block for a logical block, and a table. The rest is as it was. -/
structure Grows (sbi : SbInfo) (reserved : ℕ → Prop) (raws : ι → RawInode) (f : ι) (lb : ℕ) (s : Fs)
    (raw' : RawInode) (s' : Fs) : Prop where
  layout : Layout sbi reserved (update raws f raw') s'
  size : raw'.iSize = (raws f).iSize
  blocks : raw'.extents = false
  mapping_self : ∀ lb', lb' ≠ lb → mapping sbi raw' s'.disk lb' = mapping sbi (raws f) s.disk lb'
  place_other : ∀ f', f' ≠ f → ∀ k, place sbi (raws f') s'.disk k = place sbi (raws f') s.disk k
  frame : ∀ a, ¬ Bookkeeping sbi s.disk a → nodeBlock (raws f) 0 ≠ some (a / sbi.blockSize) →
    reserved (a / sbi.blockSize) ∨ Owned sbi raws s.disk (a / sbi.blockSize) → s'.disk a = s.disk a
  bookkeeping : ∀ a, Bookkeeping sbi s'.disk a → Bookkeeping sbi s.disk a

theorem Layout.grows_refl (h : Layout sbi reserved raws s) (hext : (raws f).extents = false) :
    Grows sbi reserved raws f lb s (raws f) s := by
  refine ⟨?_, rfl, hext, fun _ _ => rfl, fun _ _ _ => rfl, fun _ _ _ _ => rfl, fun _ => id⟩
  rwa [update_eq_self]

theorem Grows.block_eq (h : Layout sbi reserved raws s) (hg : Grows sbi reserved raws f lb s raw' s')
    (hb : Owned sbi raws s.disk b) (hne : nodeBlock (raws f) 0 ≠ some b) :
    s'.disk.block sbi.blockSize b = s.disk.block sbi.blockSize b := by
  refine block_congr fun a ha => ?_
  subst ha
  refine hg.frame a (fun hbooks => ?_) hne (Or.inr hb)
  obtain ⟨f', k, hk⟩ := hb
  exact h.not_reserved f' k _ hk (h.consistent.bookkeeping a hbooks)

section

variable {new : ℕ → Prop} {d : Disk UInt8} (h : Layout sbi reserved raws s)
  (hg : Gives sbi reserved raws s new s') (hb : new b)
  (hnode : ∀ i c, nodeBlock raw' i = some c → nodeBlock (raws f) i = some c ∨ i = 0 ∧ new c ∧ c ≠ b)
  (hd : ∀ a, (∀ i, nodeBlock raw' i ≠ some (a / sbi.blockSize)) → d a = s'.disk a)
  (hself : ∀ lb', mapping sbi raw' d lb' =
    if lb' = lb then some b else mapping sbi (raws f) s.disk lb')

include h hg hnode hd

omit [DecidableEq ι] in
theorem Layout.place_other (f' : ι) (hf : f' ≠ f) (k : Key) :
    place sbi (raws f') d k = place sbi (raws f') s.disk k := by
  refine place_congr (fun i c hc => ?_) k
  rw [← hg.block_eq h ⟨f', .node i, hc⟩]
  refine block_congr fun a ha => hd a fun j hj => ?_
  rw [ha] at hj
  rcases hnode j c hj with hold | ⟨-, hnew, -⟩
  · exact hf (h.unique f' (.node i) f (.node j) c hc hold).1
  · exact (hg.fresh c hnew).1 ⟨f', .node i, hc⟩

omit [DecidableEq ι] in
theorem Layout.disk_reserved (a : ℕ) (hres : reserved (a / sbi.blockSize)) : d a = s'.disk a := by
  refine hd a fun i hi => ?_
  rcases hnode i _ hi with hold | ⟨-, hnew, -⟩
  · exact h.not_reserved f (.node i) _ hold hres
  · exact (hg.fresh _ hnew).2.1 hres

include hb hself

theorem Layout.grow : Layout sbi reserved (update raws f raw') { s' with disk := d } := by
  refine h.attach (f := f)
    (fun k c => k = .data lb ∧ c = b ∨ k = .node 0 ∧ new c ∧ c ≠ b) ?_ ?_ ?_ ?_
  · intro f' k c hc
    by_cases hf : f' = f
    · subst hf
      rw [update_self] at hc
      cases k with
      | data lb' =>
        rw [place, hself] at hc
        split at hc
        next heq => exact Or.inr ⟨rfl, Or.inl ⟨congrArg Key.data heq, (Option.some.inj hc).symm⟩⟩
        · exact Or.inl hc
      | node i =>
        rcases hnode i c hc with hold | ⟨rfl, hnew⟩
        · exact Or.inl hold
        · exact Or.inr ⟨rfl, Or.inr ⟨rfl, hnew⟩⟩
    · rw [update_of_ne hf, h.place_other hg hnode hd f' hf] at hc
      exact Or.inl hc
  · rintro k c (⟨-, rfl⟩ | ⟨-, hc, -⟩)
    · exact hg.fresh c hb
    · exact hg.fresh c hc
  · rintro k k' c (⟨rfl, rfl⟩ | ⟨rfl, -, hc⟩) (⟨rfl, hc'⟩ | ⟨rfl, -, hc'⟩)
    · rfl
    · exact absurd rfl hc'
    · exact absurd hc' hc
    · rfl
  · refine hg.consistent.congr (h.disk_reserved hg hnode hd) ?_
    rintro c (hc | ⟨k, ⟨-, rfl⟩ | ⟨-, hc, -⟩⟩)
    · exact Or.inl hc
    · exact Or.inr hb
    · exact Or.inr hc

/-- A file mapped by blocks gets one of the new blocks, and another for its table if need be. -/
theorem Layout.grows (hext : raw'.extents = false) (hsize : raw'.iSize = (raws f).iSize) :
    Grows sbi reserved raws f lb s raw' { s' with disk := d } ∧ mapping sbi raw' d lb = some b := by
  refine ⟨⟨h.grow hg hb hnode hd hself, hsize, hext, fun lb' hne => ?_, h.place_other hg hnode hd,
    fun a hbooks hne hin => ?_, fun a ha => ?_⟩, ?_⟩
  · rw [hself, if_neg hne]
  · have hold : ¬ new (a / sbi.blockSize) := by
      intro hnew
      obtain ⟨hnot, hres, -⟩ := hg.fresh _ hnew
      exact hin.elim hres hnot
    refine (hd a fun i hi => ?_).trans (hg.frame a hold hbooks)
    rcases hnode i _ hi with hkept | ⟨-, hnew, -⟩
    · rw [nodeBlock_of_blocks hext] at hi
      split at hi
      next hzero => exact hne (hzero.1 ▸ hkept)
      · cases hi
    · exact hold hnew
  · exact hg.bookkeeping a (ha.of_fewer (hg.consistent.fewer (h.disk_reserved hg hnode hd)))
  · rw [hself, if_pos rfl]

end

/-! ## The ways to a block -/

theorem mapping_of_entry {d d' : Disk UInt8} (hext : raw.extents = false)
    (hext' : raw'.extents = false) (hb : b ≠ 0)
    (hentry : ∀ lb', blockEntry sbi raw' d' lb' = if lb' = lb then b else blockEntry sbi raw d lb')
    (lb' : ℕ) : mapping sbi raw' d' lb' = if lb' = lb then some b else mapping sbi raw d lb' := by
  rw [mapping_of_blocks hext, mapping_of_blocks hext', blockMapping, hentry]
  by_cases heq : lb' = lb
  · rw [if_pos heq, if_neg hb, if_pos heq]
  · rw [if_neg heq, if_neg heq, blockMapping]

theorem entry_fits (hlt : lb < directBlocks + sbi.blockSize / 4) :
    4 * (lb - directBlocks) + 4 ≤ sbi.blockSize := by
  have hle := sbi.le_blockSize
  omega

section

variable (h : Layout sbi reserved raws s) (hext : (raws f).extents = false)
  (ha : Allocated sbi reserved (Owned sbi raws s.disk) s b s')

include h hext ha

theorem Layout.grows_direct (hlb : lb < directBlocks) :
    Grows sbi reserved raws f lb s ((raws f).setBlock lb b) s' ∧
      mapping sbi ((raws f).setBlock lb b) s'.disk lb = some b := by
  have hext' : ((raws f).setBlock lb b).extents = false := hext
  have htable : ((raws f).setBlock lb b).iBlock directBlocks = (raws f).iBlock directBlocks :=
    update_of_ne (by omega) _ _
  refine h.grows ha.gives rfl (fun i c hc => Or.inl ?_) (fun _ _ => rfl) (fun lb' => ?_) hext' rfl
  · rwa [nodeBlock_of_blocks hext', htable, ← nodeBlock_of_blocks hext] at hc
  · rw [mapping_of_entry hext hext' ha.ne_zero (fun _ => blockEntry_setBlock hlb)]
    exact congrArg _ (ha.gives.place_eq h f (.data lb'))

theorem Layout.grows_table (hle : directBlocks ≤ lb) (hlt : lb < directBlocks + sbi.blockSize / 4)
    (htable : (raws f).iBlock directBlocks ≠ 0) :
    let d := setTableEntry sbi ((raws f).iBlock directBlocks) (lb - directBlocks) b s'.disk
    Grows sbi reserved raws f lb s (raws f) { s' with disk := d } ∧
      mapping sbi (raws f) d lb = some b := by
  have hnode : nodeBlock (raws f) 0 = some ((raws f).iBlock directBlocks) := by
    rw [nodeBlock_of_blocks hext, if_pos ⟨rfl, htable⟩]
  refine h.grows ha.gives rfl (fun i c hc => Or.inl hc) (fun a ha => ?_) (fun lb' => ?_) hext rfl
  · exact setTableEntry_other (entry_fits hlt) fun heq => ha 0 (hnode.trans (congrArg some heq.symm))
  · rw [mapping_of_entry hext hext ha.ne_zero
      (fun _ => blockEntry_setTableEntry htable hle hlt (lt_trans ha.lt (by decide)))]
    exact congrArg _ (ha.gives.place_eq h f (.data lb'))

theorem Layout.grows_newTable {s2 : Fs}
    (ha' : Allocated sbi reserved (fun c => Owned sbi raws s.disk c ∨ c = b) s' t s2)
    (hle : directBlocks ≤ lb) (hlt : lb < directBlocks + sbi.blockSize / 4)
    (htable : (raws f).iBlock directBlocks = 0) :
    let d := setTableEntry sbi t (lb - directBlocks) b s2.disk
    Grows sbi reserved raws f lb s ((raws f).setBlock directBlocks t) { s2 with disk := d } ∧
      mapping sbi ((raws f).setBlock directBlocks t) d lb = some b := by
  have hext' : ((raws f).setBlock directBlocks t).extents = false := hext
  have ht : ((raws f).setBlock directBlocks t).iBlock directBlocks = t := by
    simp [RawInode.setBlock]
  have hentry : ∀ lb', blockEntry sbi ((raws f).setBlock directBlocks t)
      (setTableEntry sbi t (lb - directBlocks) b s2.disk) lb' =
        if lb' = lb then b else blockEntry sbi (raws f) s.disk lb' := by
    intro lb'
    rw [← blockEntry_newTable htable ha'.zeros,
      ← blockEntry_setTableEntry (ht.symm ▸ ha'.ne_zero) hle hlt (lt_trans ha.lt (by decide)), ht]
  refine h.grows (ha.gives.allocated ha') (Or.inl rfl) (fun i c hc => ?_) (fun a ha => ?_)
    (mapping_of_entry hext hext' ha.ne_zero hentry) hext' rfl
  · rw [nodeBlock_of_blocks hext', ht] at hc
    split at hc
    next hi =>
      obtain rfl := Option.some.inj hc
      exact Or.inr ⟨hi.1, Or.inr rfl, fun hcb => ha'.not_owned (Or.inr hcb)⟩
    · cases hc
  · refine setTableEntry_other (entry_fits hlt) fun heq => ha 0 ?_
    rw [nodeBlock_of_blocks hext', ht, if_pos ⟨rfl, ha'.ne_zero⟩, heq]

theorem Layout.grows_allocated : Grows sbi reserved raws f lb s (raws f) s' := by
  have hplace := ha.gives.place_eq h
  refine ⟨?_, rfl, hext, fun lb' _ => hplace f (.data lb'), fun f' _ => hplace f', ?_,
    ha.bookkeeping⟩
  · rw [update_eq_self]
    exact ha.gives.layout h
  · refine fun a hbooks _ hin => ha.frame a ?_ hbooks
    rintro rfl
    exact hin.elim ha.not_reserved ha.not_owned

end

/-! ## The function -/

/-- The file gets no block, or it has one now, which is new and empty if it had none. -/
inductive BlockForWrite (sbi : SbInfo) (reserved : ℕ → Prop) (raws : ι → RawInode) (f : ι) (lb : ℕ)
    (s : Fs) : Option ℕ × RawInode × Fs → Prop
  | full (s' : Fs) (hg : Grows sbi reserved raws f lb s (raws f) s')
      (hsame : mapping sbi (raws f) s'.disk lb = mapping sbi (raws f) s.disk lb) :
      BlockForWrite sbi reserved raws f lb s (none, raws f, s')
  | block (b : ℕ) (raw' : RawInode) (s' : Fs) (hg : Grows sbi reserved raws f lb s raw' s')
      (hb : mapping sbi raw' s'.disk lb = some b)
      (hold : mapping sbi (raws f) s.disk lb = some b ∨ mapping sbi (raws f) s.disk lb = none ∧
        s'.disk.block sbi.blockSize b = List.replicate sbi.blockSize 0) :
      BlockForWrite sbi reserved raws f lb s (some b, raw', s')

theorem getFileBlock_beyond {d : Disk UInt8} (hext : raw.extents = false)
    (hlb : directBlocks + sbi.blockSize / 4 ≤ lb) : getFileBlock sbi raw lb d = noBlock := by
  rw [getFileBlock, hext, if_neg Bool.false_ne_true, getIndirectBlockEntry, if_neg (by omega),
    if_pos (by omega)]

/-- The entry for a new block, in the inode or in a table. -/
theorem setIndirectBlockEntry_spec (h : Layout sbi reserved raws s) (hext : (raws f).extents = false)
    (hhole : mapping sbi (raws f) s.disk lb = none) (hlb : lb < directBlocks + sbi.blockSize / 4)
    (ha : Allocated sbi reserved (Owned sbi raws s.disk) s b s') :
    (∃ s'', setIndirectBlockEntry sbi (raws f) lb b s' = (false, raws f, s'') ∧
      BlockForWrite sbi reserved raws f lb s (none, raws f, s'')) ∨
    ∃ raw' s'', setIndirectBlockEntry sbi (raws f) lb b s' = (true, raw', s'') ∧
      BlockForWrite sbi reserved raws f lb s (some b, raw', s'') := by
  have hzeros : ∀ t d, t ≠ b → d.block sbi.blockSize b = List.replicate sbi.blockSize 0 →
      (setTableEntry sbi t (lb - directBlocks) b d).block sbi.blockSize b =
        List.replicate sbi.blockSize 0 := by
    intro t d hne hd
    rw [← hd]
    exact block_congr fun a ha => setTableEntry_other (entry_fits hlb) (ha ▸ hne.symm)
  unfold setIndirectBlockEntry
  by_cases hdirect : lb < directBlocks
  · rw [if_pos hdirect]
    obtain ⟨hg, hb⟩ := h.grows_direct hext ha hdirect
    exact Or.inr ⟨_, _, rfl, .block b _ _ hg hb (Or.inr ⟨hhole, ha.zeros⟩)⟩
  rw [if_neg hdirect, if_neg (by omega)]
  by_cases htable : (raws f).iBlock directBlocks = 0
  · rw [if_pos htable]
    rcases allocBlock_cases ha.consistent with hfull | ⟨t, s2, heq, ha'⟩
    · rw [hfull]
      refine Or.inl ⟨s', rfl, .full s' (h.grows_allocated hext ha) ?_⟩
      exact ha.gives.place_eq h f (.data lb)
    rw [heq]
    rw [if_neg ha'.ne_zero]
    obtain ⟨hg, hb⟩ := h.grows_newTable hext ha ha' (by omega) hlb htable
    refine Or.inr ⟨_, _, rfl, .block b _ _ hg hb (Or.inr ⟨hhole, ?_⟩)⟩
    have hne : t ≠ b := fun htb => ha'.not_owned (Or.inr htb)
    refine hzeros t s2.disk hne ?_
    rw [ha'.block_eq ha.consistent ha.not_reserved hne.symm, ha.zeros]
  · rw [if_neg htable]
    obtain ⟨hg, hb⟩ := h.grows_table hext ha (by omega) hlb htable
    refine Or.inr ⟨_, _, rfl, .block b _ _ hg hb (Or.inr ⟨hhole, hzeros _ _ ?_ ha.zeros⟩)⟩
    intro htb
    refine ha.not_owned ⟨f, .node 0, ?_⟩
    rw [place, nodeBlock_of_blocks hext, if_pos ⟨rfl, htable⟩, htb]

theorem blockForWrite_spec (h : Layout sbi reserved raws s) (hext : (raws f).extents = false)
    (lb : ℕ) : BlockForWrite sbi reserved raws f lb s (blockForWrite sbi (raws f) lb s) := by
  unfold blockForWrite
  by_cases hlb : lb < directBlocks + sbi.blockSize / 4
  · cases hmap : mapping sbi (raws f) s.disk lb with
    | some b =>
      have hpos : b ≠ 0 := by
        rw [mapping_of_blocks hext] at hmap
        exact (blockMapping_eq_some.mp hmap).2
      rw [getFileBlock_of_mapping hmap, if_neg (h.lt f (.data lb) b hmap).ne, if_neg hpos]
      exact .block b _ s (h.grows_refl hext) hmap (Or.inl hmap)
    | none =>
      rw [getFileBlock_blocks_hole hext hlb hmap, if_neg (by decide), if_pos rfl]
      rcases allocBlock_cases h.consistent with hfull | ⟨b, s', heq, ha⟩
      · rw [hfull, if_pos rfl]
        exact .full s (h.grows_refl hext) rfl
      rw [heq]
      rw [if_neg ha.ne_zero]
      rcases setIndirectBlockEntry_spec h hext hmap hlb ha with
        ⟨s'', hset, hspec⟩ | ⟨raw', s'', hset, hspec⟩ <;> rwa [hset]
  · rw [getFileBlock_beyond hext (Nat.not_lt.mp hlb), if_pos rfl]
    exact .full s (h.grows_refl hext) rfl

/-! ## Writing to a file

The bytes of files lie in their blocks, and a byte in a hole is zero. A write changes the bytes of
its range and nothing else. -/

open List Nat Disk

variable {bytes : ι → Disk UInt8} {p off : ℕ} {src : List UInt8} {d : Disk UInt8}

/-- What is stored of the bytes of files. -/
structure Stored (sbi : SbInfo) (raws : ι → RawInode) (bytes : ι → Disk UInt8) (d : Disk UInt8) :
    Prop where
  block : ∀ f lb b, mapping sbi (raws f) d lb = some b →
    d.block sbi.blockSize b = (bytes f).slice (lb * sbi.blockSize) sbi.blockSize
  hole : ∀ f a, mapping sbi (raws f) d (a / sbi.blockSize) = none → bytes f a = 0

omit [DecidableEq ι] in
theorem Stored.slice_hole (h : Stored sbi raws bytes d) (hhole : mapping sbi (raws f) d lb = none) :
    (bytes f).slice (lb * sbi.blockSize) sbi.blockSize = List.replicate sbi.blockSize 0 := by
  refine eq_replicate_iff.mpr ⟨length_slice, fun x hx => ?_⟩
  obtain ⟨a, ha, rfl⟩ := mem_map.mp hx
  rw [mem_range'_1, mem_block_iff sbi.blockSize_pos] at ha
  exact h.hole f a (ha ▸ hhole)

theorem Grows.stored (h : Layout sbi reserved raws s) (hg : Grows sbi reserved raws f lb s raw' s')
    (hstored : Stored sbi raws bytes s.disk)
    (hnew : ∀ b, mapping sbi raw' s'.disk lb = some b → mapping sbi (raws f) s.disk lb = some b ∨
      mapping sbi (raws f) s.disk lb = none ∧
        s'.disk.block sbi.blockSize b = List.replicate sbi.blockSize 0)
    (hkept : mapping sbi raw' s'.disk lb = none → mapping sbi (raws f) s.disk lb = none) :
    Stored sbi (update raws f raw') bytes s'.disk := by
  have hblock : ∀ f' lb' b, mapping sbi (raws f') s.disk lb' = some b →
      s'.disk.block sbi.blockSize b = (bytes f').slice (lb' * sbi.blockSize) sbi.blockSize := by
    intro f' lb' b hb
    rw [hg.block_eq h ⟨f', .data lb', hb⟩, hstored.block f' lb' b hb]
    intro hnode
    cases (h.unique f (.node 0) f' (.data lb') b hnode hb).2
  refine ⟨fun f' lb' b hb => ?_, fun f' a ha => ?_⟩
  · by_cases hf : f' = f
    · subst hf
      rw [update_self] at hb
      by_cases hlb : lb' = lb
      · subst hlb
        rcases hnew b hb with hold | ⟨hhole, hzeros⟩
        · exact hblock f' lb' b hold
        · rw [hzeros, hstored.slice_hole hhole]
      · rw [hg.mapping_self lb' hlb] at hb
        exact hblock f' lb' b hb
    · rw [update_of_ne hf] at hb
      exact hblock f' lb' b ((hg.place_other f' hf (.data lb')).symm.trans hb)
  · refine hstored.hole f' a ?_
    by_cases hf : f' = f
    · subst hf
      rw [update_self] at ha
      by_cases hlb : a / sbi.blockSize = lb
      · rw [hlb] at ha ⊢
        exact hkept ha
      · rwa [hg.mapping_self _ hlb] at ha
    · rw [update_of_ne hf] at ha
      exact (hg.place_other f' hf (.data _)).symm.trans ha

/-! ## Bytes of a block -/

theorem writeInBlock_eq {pb : ℕ} (h : off + src.length ≤ sbi.blockSize) :
    writeInBlock sbi pb off src d = d.store (pb * sbi.blockSize + off) src := by
  simp only [writeInBlock, writeAt_eq, readAt_eq]
  split
  next hwhole => rw [hwhole.1, add_zero]
  · exact store_patch h

theorem store_other_block (h : off + src.length ≤ sbi.blockSize) (ha : a / sbi.blockSize ≠ b) :
    d.store (b * sbi.blockSize + off) src a = d a := by
  refine store_of_not_mem fun hin => not_mem_block ha ?_
  omega

theorem Stored.write (h : Layout sbi reserved raws s) (hstored : Stored sbi raws bytes s.disk)
    (hb : mapping sbi (raws f) s.disk lb = some b) (hfits : off + src.length ≤ sbi.blockSize) :
    Stored sbi raws (update bytes f ((bytes f).store (lb * sbi.blockSize + off) src))
      (s.disk.store (b * sbi.blockSize + off) src) := by
  have hplace := h.place_write hb fun a ha => store_other_block hfits ha
  refine ⟨fun f' lb' c hc => ?_, fun f' a ha => ?_⟩
  · have hc' : mapping sbi (raws f') s.disk lb' = some c := (hplace f' (.data lb')).symm.trans hc
    by_cases hcb : c = b
    · subst hcb
      obtain ⟨rfl, hlb⟩ := h.unique f' (.data lb') f (.data lb) c hc' hb
      obtain rfl := Key.data.inj hlb
      rw [update_self, slice_store_within hfits, Disk.block, slice_store_within hfits]
      exact congrArg _ (hstored.block f' lb' c hc')
    · have hold : (s.disk.store (b * sbi.blockSize + off) src).block sbi.blockSize c =
          s.disk.block sbi.blockSize c :=
        block_congr fun a ha => store_other_block hfits (ha ▸ hcb)
      rw [hold, hstored.block f' lb' c hc']
      by_cases hf : f' = f
      · subst hf
        rw [update_self]
        refine (slice_congr fun a hle hlt => store_other_block hfits ?_).symm
        rintro rfl
        have ha := (mem_block_iff sbi.blockSize_pos).mp ⟨hle, hlt⟩
        rw [ha] at hb
        exact hcb (Option.mem_unique hc' hb)
      · rw [update_of_ne hf]
  · have ha' : mapping sbi (raws f') s.disk (a / sbi.blockSize) = none :=
      (hplace f' (.data _)).symm.trans ha
    by_cases hf : f' = f
    · subst hf
      rw [update_self, store_other_block hfits, hstored.hole f' a ha']
      intro heq
      rw [heq, hb] at ha'
      cases ha'
    · rw [update_of_ne hf, hstored.hole f' a ha']

/-! ## Writes -/

/-- Bytes have been written to a file at a position. -/
structure Writes (sbi : SbInfo) (reserved : ℕ → Prop) (raws : ι → RawInode) (bytes : ι → Disk UInt8)
    (f : ι) (p : ℕ) (src : List UInt8) (s : Fs) (raw' : RawInode) (s' : Fs) : Prop where
  layout : Layout sbi reserved (update raws f raw') s'
  size : raw'.iSize = (raws f).iSize
  blocks : raw'.extents = false
  stored : Stored sbi (update raws f raw') (update bytes f ((bytes f).store p src)) s'.disk
  kept : ∀ lb, mapping sbi (raws f) s.disk lb ≠ none → mapping sbi raw' s'.disk lb ≠ none
  written : ∀ a, p ≤ a → a < p + src.length → mapping sbi raw' s'.disk (a / sbi.blockSize) ≠ none
  place_other : ∀ f', f' ≠ f → ∀ k, place sbi (raws f') s'.disk k = place sbi (raws f') s.disk k
  block_other : ∀ f', f' ≠ f → ∀ b, Belongs sbi (raws f') s.disk b →
    s'.disk.block sbi.blockSize b = s.disk.block sbi.blockSize b
  frame : ∀ a, reserved (a / sbi.blockSize) → ¬ Bookkeeping sbi s.disk a → s'.disk a = s.disk a
  bookkeeping : ∀ a, Bookkeeping sbi s'.disk a → Bookkeeping sbi s.disk a

theorem Grows.writes (h : Layout sbi reserved raws s) (hg : Grows sbi reserved raws f lb s raw' s')
    (hstored : Stored sbi (update raws f raw') bytes s'.disk)
    (hkept : mapping sbi (raws f) s.disk lb ≠ none → mapping sbi raw' s'.disk lb ≠ none) :
    Writes sbi reserved raws bytes f p [] s raw' s' := by
  refine ⟨hg.layout, hg.size, hg.blocks, ?_, ?_, ?_, hg.place_other, ?_, ?_, hg.bookkeeping⟩
  · rwa [store_nil, update_eq_self]
  · intro lb' hne
    by_cases hlb : lb' = lb
    · rw [hlb] at hne ⊢
      exact hkept hne
    · rwa [hg.mapping_self lb' hlb]
  · intro a hle hlt
    exact absurd hlt (by simpa using hle)
  · rintro f' hf b ⟨k, hk⟩
    refine hg.block_eq h ⟨f', k, hk⟩ fun hnode => hf ?_
    exact (h.unique f (.node 0) f' k b hnode hk).1.symm
  · intro a hres hbooks
    refine hg.frame a hbooks (fun hnode => ?_) (Or.inl hres)
    exact h.not_reserved f (.node 0) _ hnode hres

section

variable (h : Layout sbi reserved raws s) (hext : (raws f).extents = false)
  (hstored : Stored sbi raws bytes s.disk)

include h hext hstored

theorem Layout.writes_nil : Writes sbi reserved raws bytes f p [] s (raws f) s := by
  have hrefl : Grows sbi reserved raws f 0 s (raws f) s := h.grows_refl hext
  refine hrefl.writes h ?_ id
  rwa [update_eq_self]

theorem Layout.writes (hb : mapping sbi (raws f) s.disk (p / sbi.blockSize) = some b)
    (hoff : off = p % sbi.blockSize) (hfits : off + src.length ≤ sbi.blockSize) :
    Writes sbi reserved raws bytes f p src s (raws f)
      { s with disk := s.disk.store (b * sbi.blockSize + off) src } := by
  have hd : ∀ a, a / sbi.blockSize ≠ b → s.disk.store (b * sbi.blockSize + off) src a = s.disk a :=
    fun a ha => store_other_block hfits ha
  have hplace := h.place_write hb hd
  have hmap : ∀ lb', mapping sbi (raws f) (s.disk.store (b * sbi.blockSize + off) src) lb' =
      mapping sbi (raws f) s.disk lb' := fun lb' => hplace f (.data lb')
  have hpos : p / sbi.blockSize * sbi.blockSize + off = p := by
    rw [hoff, mul_comm, div_add_mod]
  refine ⟨?_, rfl, hext, ?_, ?_, ?_, fun f' _ => hplace f', ?_, ?_, ?_⟩
  · rw [update_eq_self]
    exact h.write hb hd
  · have hwrite := hstored.write h hb hfits
    rwa [hpos, ← update_eq_self f raws] at hwrite
  · exact fun lb' hne hnone => hne ((hmap lb').symm.trans hnone)
  · intro a hle hlt
    have hdiv : a / sbi.blockSize = p / sbi.blockSize := by
      rw [← Nat.add_sub_cancel' hle]
      exact add_div_of_lt (by omega)
    rw [hdiv]
    exact fun hnone => Option.some_ne_none b (hb.symm.trans ((hmap _).symm.trans hnone))
  · rintro f' hf c ⟨k, hk⟩
    refine block_congr fun a ha => hd a ?_
    rintro heq
    exact hf (h.unique f' k f (.data _) c hk (hb.trans (congrArg some (heq.symm.trans ha)))).1
  · intro a hres _
    exact hd a fun heq => h.not_reserved f (.data _) b hb (heq ▸ hres)
  · refine fun a hbooks => hbooks.of_fewer (h.consistent.fewer fun a hres => ?_)
    exact hd a fun heq => h.not_reserved f (.data _) b hb (heq ▸ hres)

end

theorem Writes.trans {s1 s2 : Fs} {raw1 raw2 : RawInode} {src1 src2 : List UInt8}
    (h1 : Writes sbi reserved raws bytes f p src1 s raw1 s1)
    (h2 : Writes sbi reserved (update raws f raw1)
      (update bytes f ((bytes f).store p src1)) f (p + src1.length) src2 s1 raw2 s2) :
    Writes sbi reserved raws bytes f p (src1 ++ src2) s raw2 s2 := by
  obtain ⟨hlayout, hsize, hext, hstored, hkept, hwritten, hplace, hblock, hframe, hbooks⟩ := h2
  simp only [update_self, update_idem, ← store_append] at hlayout hsize hstored hkept
  have hother : ∀ f', f' ≠ f → update raws f raw1 f' = raws f' := fun f' hf => update_of_ne hf _ _
  refine ⟨hlayout, hsize.trans h1.size, hext, hstored, fun lb hne => hkept lb (h1.kept lb hne),
    ?_, ?_, ?_, ?_, fun a ha => h1.bookkeeping a (hbooks a ha)⟩
  · intro a hle hlt
    rw [length_append] at hlt
    rcases lt_or_ge a (p + src1.length) with hfirst | hsecond
    · exact hkept _ (h1.written a hle hfirst)
    · exact hwritten a hsecond (by omega)
  · intro f' hf k
    have hk := hplace f' hf k
    rw [hother f' hf] at hk
    exact hk.trans (h1.place_other f' hf k)
  · rintro f' hf b ⟨k, hk⟩
    refine (hblock f' hf b ⟨k, ?_⟩).trans (h1.block_other f' hf b ⟨k, hk⟩)
    rw [hother f' hf, h1.place_other f' hf, hk]
  · intro a hres ha
    rw [hframe a hres fun hb => ha (h1.bookkeeping a hb), h1.frame a hres ha]

/-! ## The loop -/

theorem min_add_le {n : ℕ} (hoff : off < sbi.blockSize) :
    off + min (sbi.blockSize - off) n ≤ sbi.blockSize := by
  omega

/-- A round of `ext4_write_file`, which stops without space or writes a part of the source. -/
theorem blockForWrite_writes (h : Layout sbi reserved raws s) (hext : (raws f).extents = false)
    (hstored : Stored sbi raws bytes s.disk)
    (hsrc : p % sbi.blockSize + src.length ≤ sbi.blockSize) :
    (∃ s', blockForWrite sbi (raws f) (p / sbi.blockSize) s = (none, raws f, s') ∧
      Writes sbi reserved raws bytes f p [] s (raws f) s') ∨
    ∃ b raw' s', blockForWrite sbi (raws f) (p / sbi.blockSize) s = (some b, raw', s') ∧
      Writes sbi reserved raws bytes f p src s raw'
        { s' with disk := writeInBlock sbi b (p % sbi.blockSize) src s'.disk } := by
  have hspec := blockForWrite_spec h hext (p / sbi.blockSize)
  generalize blockForWrite sbi (raws f) (p / sbi.blockSize) s = r at hspec
  cases hspec with
  | full s' hg hsame =>
    refine Or.inl ⟨s', rfl, hg.writes h (hg.stored h hstored ?_ ?_) ?_⟩
    · exact fun b hb => Or.inl (hsame.symm.trans hb)
    · exact fun hnone => hsame.symm.trans hnone
    · exact fun hne hnone => hne (hsame.symm.trans hnone)
  | block b raw' s' hg hb hold =>
    have hsome : mapping sbi raw' s'.disk (p / sbi.blockSize) ≠ none :=
      fun hnone => Option.some_ne_none b (hb.symm.trans hnone)
    have hstored' : Stored sbi (update raws f raw') bytes s'.disk := by
      refine hg.stored h hstored (fun c hc => ?_) fun hnone => absurd hnone hsome
      obtain rfl := Option.mem_unique hb hc
      exact hold
    have hgrow : Writes sbi reserved raws bytes f p [] s raw' s' :=
      hg.writes h hstored' fun _ => hsome
    have hupdate : update raws f raw' f = raw' := update_self ..
    have hwrite := hg.layout.writes (hupdate.symm ▸ hg.blocks) hstored' (hupdate.symm ▸ hb) rfl hsrc
    rw [← writeInBlock_eq hsrc, hupdate] at hwrite
    refine Or.inr ⟨b, raw', s', rfl, hgrow.trans ?_⟩
    simpa only [store_nil, update_eq_self, length_nil, add_zero] using hwrite

/-- The results of the loop after `total` bytes, of which `n` more are written. -/
def LoopResult (total n : ℕ) (r : ℤ) : Prop :=
  r = ((total + n : ℕ) : ℤ) ∨ total + n = 0 ∧ r = -enospc

theorem writeLoop_spec (fuel : ℕ) : ∀ p src total (raws : ι → RawInode) (bytes : ι → Disk UInt8) s,
    src.length ≤ fuel → p + src.length ≤ 2 ^ 32 * sbi.blockSize → Layout sbi reserved raws s →
    (raws f).extents = false → Stored sbi raws bytes s.disk →
    ∃ n r raw' s', writeLoop sbi fuel p src total (raws f) s = (r, p + n, raw', s') ∧
      n ≤ src.length ∧ LoopResult total n r ∧
      Writes sbi reserved raws bytes f p (src.take n) s raw' s' := by
  induction fuel with
  | zero =>
    intro p src total raws bytes s hfuel _ h hext hstored
    obtain rfl := eq_nil_of_length_eq_zero (le_zero.mp hfuel)
    exact ⟨0, total, raws f, s, rfl, le_rfl, Or.inl rfl, h.writes_nil hext hstored⟩
  | succ fuel ih =>
    intro p src total raws bytes s hfuel hend h hext hstored
    rw [writeLoop]
    split
    next hnil =>
      exact ⟨0, total, raws f, s, rfl, zero_le _, Or.inl rfl, h.writes_nil hext hstored⟩
    next hne =>
      have hlen := length_pos_iff.mpr hne
      have hoff := mod_lt p sbi.blockSize_pos
      have hlb : p / sbi.blockSize < 2 ^ 32 := by
        refine Nat.div_lt_of_lt_mul ?_
        omega
      rw [mod_eq_of_lt hlb]
      set n := min (sbi.blockSize - p % sbi.blockSize) src.length
      have htake : (src.take n).length = n := length_take_of_le (min_le_right _ _)
      have hfits : p % sbi.blockSize + (src.take n).length ≤ sbi.blockSize := by
        rw [htake]
        exact min_add_le hoff
      rcases blockForWrite_writes h hext hstored hfits with
        ⟨s', heq, hwrites⟩ | ⟨b, raw', s', heq, hwrites⟩
      · rw [heq]
        refine ⟨0, _, raws f, s', rfl, zero_le _, ?_, hwrites⟩
        by_cases htotal : 0 < total
        · rw [if_pos htotal]
          exact Or.inl rfl
        · rw [if_neg htotal]
          exact Or.inr ⟨by omega, rfl⟩
      · rw [heq]
        dsimp only
        have hupdate : update raws f raw' f = raw' := update_self ..
        obtain ⟨m, r, raw2, s2, hloop, hm, hr, hwrites2⟩ := ih (p + n) (src.drop n) (total + n) _ _
          { s' with disk := writeInBlock sbi b (p % sbi.blockSize) (src.take n) s'.disk }
          (by rw [length_drop]; omega) (by rw [length_drop]; omega) hwrites.layout
          (hupdate.symm ▸ hwrites.blocks) hwrites.stored
        rw [hupdate] at hloop
        rw [length_drop] at hm
        refine ⟨n + m, r, raw2, s2, ?_, by omega, ?_, ?_⟩
        · rw [hloop, add_assoc]
        · rwa [LoopResult, ← add_assoc]
        · rw [take_add]
          refine hwrites.trans ?_
          rwa [htake]

end NoobKernel.Ext4
