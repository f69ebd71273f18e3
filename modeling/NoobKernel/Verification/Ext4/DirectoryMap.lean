import NoobKernel.Verification.Ext4.Contents
import NoobKernel.Verification.Ext4.Entries
import Mathlib.Data.List.TakeWhile

/-! # A directory as a map

A directory maps names to inode numbers. Each call changes the map at one name. -/

namespace NoobKernel.Ext4

open Library List Function

variable {sbi : SbInfo} {reserved : ℕ → Prop} {dir dir' : Inode} {s s' : Fs} {op : DirOp}
  {ops : List DirOp} {blocks : List (List Slot)} {name : List UInt8}

/-- The blocks of the directory are full of entries. -/
def WellFormed (sbi : SbInfo) (reserved : ℕ → Prop) (dir : Inode) (s : Fs) : Prop :=
  ∃ blocks, Dir sbi reserved dir s blocks

def ValidName (name : List UInt8) : Prop := 0 < name.length ∧ name.length < 2 ^ 8

instance : Decidable (ValidName name) := inferInstanceAs (Decidable (_ ∧ _))

def DirOp.update (m : List UInt8 → ℕ) : DirOp → List UInt8 → ℕ
  | .add ino name _ => Function.update m name ino
  | .unlink name => Function.update m name 0

/-- A call for a name that is not there, or that is there. -/
def DirOp.Allowed (sbi : SbInfo) (dir : Inode) (s : Fs) : DirOp → Prop
  | .add ino name fileType => ValidName name ∧ NewEntry ino name fileType ∧
      dirLookup sbi dir.raw name s.disk = 0
  | .unlink name => ValidName name ∧ dirLookup sbi dir.raw name s.disk ≠ 0

/-- A call that the code is ready for. -/
def DirOp.Safe (sbi : SbInfo) (dir : Inode) : DirOp → Prop
  | .add _ _ _ => Growable sbi dir
  | .unlink _ => dir.iSize < 2 ^ 32

/-- A sequence of calls that all succeed. -/
inductive DirRun (sbi : SbInfo) : Inode → Fs → List DirOp → Inode → Fs → Prop
  | nil (dir : Inode) (s : Fs) : DirRun sbi dir s [] dir s
  | cons {dir dir' dir'' : Inode} {s s' s'' : Fs} {op : DirOp} {ops : List DirOp}
      (hallowed : op.Allowed sbi dir s) (hsafe : op.Safe sbi dir)
      (hstep : op.run sbi dir s = .ok (0, dir', s')) (hrest : DirRun sbi dir' s' ops dir'' s'') :
      DirRun sbi dir s (op :: ops) dir'' s''

/-! ## One call -/

/-- A call leaves a directory with the map that it should have, or fails and leaves the map. -/
structure StepRight (sbi : SbInfo) (reserved : ℕ → Prop) (dir : Inode) (s : Fs) (op : DirOp)
    (r : ℤ × Inode × Fs) : Prop where
  wellFormed : WellFormed sbi reserved r.2.1 r.2.2
  result : r.1 = 0 ∨ (∃ ino name fileType, op = .add ino name fileType) ∧
    (r.1 = -enospc ∨ r.1 = -eio)
  lookup : ∀ name, ValidName name → dirLookup sbi r.2.1.raw name r.2.2.disk =
    if r.1 = 0 then op.update (fun name => dirLookup sbi dir.raw name s.disk) name
    else dirLookup sbi dir.raw name s.disk

section

variable (h : WellFormed sbi reserved dir s) (hname : ValidName name)

include h hname

theorem WellFormed.add {ino fileType : ℕ} (hentry : NewEntry ino name fileType)
    (hgrow : Growable sbi dir) (habsent : dirLookup sbi dir.raw name s.disk = 0) :
    StepRight sbi reserved dir s (.add ino name fileType)
      (addDirEntry sbi dir ino name fileType s) := by
  obtain ⟨blocks, hdir⟩ := h
  rw [hdir.dirLookup_eq hname.2] at habsent
  have hspec := hdir.add_spec hgrow hentry
  generalize addDirEntry sbi dir ino name fileType s = r at hspec
  cases hspec with
  | @added dir' s' blocks' hdir' hinserts hspace hsize =>
    refine ⟨⟨blocks', hdir'⟩, Or.inl rfl, fun other hother => ?_⟩
    rw [hdir'.dirLookup_eq hother.2, hinserts.lookup_absent habsent, if_pos rfl, DirOp.update,
      update_apply, hdir.dirLookup_eq hother.2]
  | @failed e s' he hdir' hspace =>
    have hne : e ≠ 0 := by
      rcases he with rfl | rfl <;> decide
    refine ⟨⟨blocks, hdir'⟩, Or.inr ⟨⟨_, _, _, rfl⟩, he⟩, fun other hother => ?_⟩
    rw [if_neg hne, hdir'.dirLookup_eq hother.2, hdir.dirLookup_eq hother.2]

theorem WellFormed.unlink (hsize : dir.iSize < 2 ^ 32)
    (hthere : dirLookup sbi dir.raw name s.disk ≠ 0) :
    ∃ s', Ext4.unlink sbi dir name s = .ok (0, s') ∧
      StepRight sbi reserved dir s (.unlink name) (0, dir, s') := by
  obtain ⟨blocks, hdir⟩ := h
  rw [hdir.dirLookup_eq hname.2] at hthere
  obtain ⟨d', heq, hdir'⟩ := hdir.unlink_spec hname.2 hsize hthere
  refine ⟨_, heq, ⟨_, hdir'⟩, Or.inl rfl, fun other hother => ?_⟩
  rw [hdir'.dirLookup_eq hother.2, ← map_flatten, lookup_unlinked, if_pos rfl, DirOp.update,
    update_apply, hdir.dirLookup_eq hother.2]

/-- `ext4_unlink` of a name that is not there changes nothing. It still returns 0 when an entry that
has been removed has the name. -/
theorem WellFormed.unlink_absent (hsize : dir.iSize < 2 ^ 32)
    (habsent : dirLookup sbi dir.raw name s.disk = 0) :
    ∃ stale : Bool, Ext4.unlink sbi dir name s = .ok (if stale then 0 else -enoent, s) := by
  obtain ⟨blocks, hdir⟩ := h
  rw [hdir.dirLookup_eq hname.2, lookup_eq_zero] at habsent
  have hholds : blocks.flatten.any (Slot.holds name) = false :=
    any_eq_false.mpr fun t ht => Bool.eq_false_iff.mp (habsent t ht)
  refine ⟨blocks.flatten.any (Slot.named name), ?_⟩
  rw [hdir.unlink_eq hname.2 hsize, hholds, if_neg Bool.false_ne_true]

end

theorem WellFormed.step (h : WellFormed sbi reserved dir s) (hallowed : op.Allowed sbi dir s)
    (hsafe : op.Safe sbi dir) :
    ∃ r, op.run sbi dir s = .ok r ∧ StepRight sbi reserved dir s op r := by
  cases op with
  | add ino name fileType =>
    exact ⟨_, rfl, h.add hallowed.1 hallowed.2.1 hsafe hallowed.2.2⟩
  | unlink name =>
    obtain ⟨s', heq, hright⟩ := h.unlink hallowed.1 hsafe hallowed.2
    refine ⟨_, ?_, hright⟩
    rw [DirOp.run, heq]
    rfl

/-! ## Sequences of calls -/

theorem update_congr {m m' : List UInt8 → ℕ} (h : ∀ name, ValidName name → m name = m' name)
    (op : DirOp) (name : List UInt8) (hname : ValidName name) :
    op.update m name = op.update m' name := by
  cases op with
  | add ino other fileType =>
    simp only [DirOp.update, update_apply, h name hname]
  | unlink other => simp only [DirOp.update, update_apply, h name hname]

theorem foldl_update_congr (ops : List DirOp) : ∀ {m m' : List UInt8 → ℕ},
    (∀ name, ValidName name → m name = m' name) → ∀ name, ValidName name →
    ops.foldl DirOp.update m name = ops.foldl DirOp.update m' name := by
  induction ops with
  | nil => exact fun h => h
  | cons op ops ih => exact fun h => ih (update_congr h op)

/-- A directory is a map: over every sequence of calls that succeed, the names that are found are
those that have been added and not removed since. -/
theorem directory_map (h : WellFormed sbi reserved dir s) (hrun : DirRun sbi dir s ops dir' s') :
    WellFormed sbi reserved dir' s' ∧
    (∀ name, ValidName name → dirLookup sbi dir'.raw name s'.disk =
      ops.foldl DirOp.update (fun name => dirLookup sbi dir.raw name s.disk) name) ∧
    ∀ op : DirOp, op.Allowed sbi dir' s' → op.Safe sbi dir' →
      ∃ r, op.run sbi dir' s' = .ok r ∧ StepRight sbi reserved dir' s' op r := by
  induction hrun with
  | nil dir s => exact ⟨h, fun _ _ => rfl, fun op => h.step⟩
  | @cons dir dir1 dir2 s s1 s2 op ops hallowed hsafe hstep hrest ih =>
    obtain ⟨r, heq, hright⟩ := h.step hallowed hsafe
    cases hstep.symm.trans heq
    obtain ⟨hwf, hlookup, hnext⟩ := ih hright.wellFormed
    refine ⟨hwf, fun name hname => ?_, hnext⟩
    rw [hlookup name hname, foldl_cons]
    exact foldl_update_congr ops
      (fun name hname => (hright.lookup name hname).trans (if_pos rfl)) name hname

/-! ## A directory with one block -/

/-- An entry with zeros behind its name. -/
def paddedSlot {ino fileType : ℕ} (h : NewEntry ino name fileType) (n : ℕ) (hfits : name.length ≤ n)
    (haligned : 4 ∣ n) (hshort : direntSize + n < 2 ^ 16) : Slot :=
  .make h (List.replicate n 0) (by rwa [length_replicate]) (by rwa [length_replicate])
    (by rwa [length_replicate])

section

variable {ino fileType n : ℕ} {h : NewEntry ino name fileType} {hfits : name.length ≤ n}
  {haligned : 4 ∣ n} {hshort : direntSize + n < 2 ^ 16}

theorem paddedSlot_recLen : (paddedSlot h n hfits haligned hshort).recLen = direntSize + n := by
  rw [paddedSlot, Slot.make_recLen, length_replicate]

theorem paddedSlot_holds {other : List UInt8} :
    (paddedSlot h n hfits haligned hshort).holds other =
      (decide (ino ≠ 0) && decide (name = other)) := by
  have hnamed : (paddedSlot h n hfits haligned hshort).named other = decide (name = other) := by
    by_cases hname : name = other
    · subst hname
      simp [Slot.named, paddedSlot]
    · simp [Slot.named, paddedSlot, hname]
  rw [Slot.holds, hnamed]
  rfl

end

/-- A file "a". -/
def fileSlot : Slot :=
  paddedSlot (⟨by decide, by decide, by decide⟩ : NewEntry 7 [97] ftRegFile) 1004
    (by decide) (by decide) (by decide)

/-- The slots of a directory with a subdirectory "b" and a file. -/
def twoSlots : List Slot :=
  [paddedSlot (⟨by decide, by decide, by decide⟩ : NewEntry 6 [98] ftDir) 4
    (by decide) (by decide) (by decide), fileSlot]

def oneBlockDir : Inode := ⟨1024, ⟨1024, 0, fun i => if i = 0 then 5 else 0⟩⟩

def oneBlockFs (slots : List Slot) : Fs :=
  ⟨List.replicate superblockSize 0, Disk.store (5 * smallFs.blockSize) (slotBytes slots) smallDisk⟩

theorem oneBlock_extents : oneBlockDir.raw.extents = false := by decide

theorem oneBlock_place (d : Disk UInt8) {k : Key} {b : ℕ} :
    place smallFs oneBlockDir.raw d k = some b ↔ k = .data 0 ∧ b = 5 := by
  have htable : oneBlockDir.raw.iBlock directBlocks = 0 := rfl
  cases k with
  | data lb =>
    rw [place, mapping_of_blocks oneBlock_extents, blockMapping_eq_some, blockEntry]
    by_cases hlb : lb = 0
    · subst hlb
      constructor
      · rintro ⟨rfl, -⟩
        exact ⟨rfl, rfl⟩
      · rintro ⟨-, rfl⟩
        exact ⟨rfl, by decide⟩
    · have hword : oneBlockDir.raw.iBlock lb = 0 := if_neg hlb
      simp [hlb, hword, htable, eq_comm]
  | node i => simp [place, nodeBlock_of_blocks oneBlock_extents, htable]

theorem oneBlock_dir {slots : List Slot} (hlen : (slotBytes slots).length = smallFs.blockSize) :
    Dir smallFs (· < 5) oneBlockDir (oneBlockFs slots) [slots] := by
  have hone : oneBlockDir.iSize = [slots].length * smallFs.blockSize := by
    rw [length_singleton, one_mul]
    rfl
  refine ⟨⟨?_, ?_, ?_, ?_⟩, hone, rfl, ?_, ?_, fun lb slots' hlb => ?_⟩
  · refine smallDisk_consistent.congr (fun a ha => ?_)
      fun b ⟨_, k, hk⟩ => ((oneBlock_place _).mp hk).2
    refine Disk.store_of_not_mem ?_
    rw [hlen]
    exact not_mem_block (by omega)
  · intro _ k _ k' b hk hk'
    rw [oneBlock_place] at hk hk'
    exact ⟨rfl, hk.1.trans hk'.1.symm⟩
  · intro _ k b hk
    rw [oneBlock_place] at hk
    omega
  · intro _ k b hk
    rw [oneBlock_place] at hk
    rw [hk.2]
    decide
  · rw [oneBlock_extents]
    exact fun h => absurd h Bool.false_ne_true
  · rw [oneBlock_extents]
    exact fun h => absurd h Bool.false_ne_true
  · cases lb with
    | zero =>
      cases hlb
      exact ⟨5, (oneBlock_place (oneBlockFs slots).disk).mpr ⟨rfl, rfl⟩,
        Disk.block_setBlock_self hlen⟩
    | succ lb => cases hlb

theorem oneBlock_growable : Growable smallFs oneBlockDir := by
  refine ⟨by decide, fun h => ?_, fun h => absurd h (by decide)⟩
  cases h

theorem two_dir : Dir smallFs (· < 5) oneBlockDir (oneBlockFs twoSlots) [twoSlots] := by
  refine oneBlock_dir ?_
  simp only [twoSlots, fileSlot, slotBytes_cons, slotBytes_nil, append_nil, length_append,
    Slot.length_bytes, paddedSlot_recLen]
  rfl

theorem two_lookup (name : List UInt8) :
    lookup name twoSlots = if [98] = name then 6 else if [97] = name then 7 else 0 := by
  simp only [twoSlots, fileSlot, lookup_cons, lookup_nil, paddedSlot_holds, decide_eq_true_eq,
    ne_eq, OfNat.ofNat_ne_zero, not_false_eq_true, decide_true, Bool.true_and]
  rfl

theorem two_names (hname : name.length < 2 ^ 8) :
    dirLookup smallFs oneBlockDir.raw name (oneBlockFs twoSlots).disk =
      if [98] = name then 6 else if [97] = name then 7 else 0 := by
  rw [two_dir.dirLookup_eq hname, flatten_singleton, two_lookup]

/-- A name is added behind the last entry of a directory. -/
theorem directory_map_one_block : ∃ dir' s',
    DirRun smallFs oneBlockDir (oneBlockFs twoSlots) [.add 8 [99] ftRegFile] dir' s' ∧
      dirLookup smallFs dir'.raw [99] s'.disk = 8 ∧ dirLookup smallFs dir'.raw [98] s'.disk = 6 := by
  have hentry : NewEntry 8 [99] ftRegFile := ⟨by decide, by decide, by decide⟩
  have hspace : HasSpace smallFs oneBlockDir [99] (oneBlockFs twoSlots) [twoSlots].flatten := by
    refine Or.inr (Or.inr ⟨fileSlot, rfl, ?_, Or.inl ?_⟩)
    · rw [fileSlot, paddedSlot_recLen]
      decide
    · rw [fileSlot, paddedSlot_recLen]
      decide
  obtain ⟨dir', s', hstep⟩ : ∃ dir' s',
      addDirEntry smallFs oneBlockDir 8 [99] ftRegFile (oneBlockFs twoSlots) = (0, dir', s') := by
    have hspec := two_dir.add_spec oneBlock_growable hentry
    generalize addDirEntry smallFs oneBlockDir 8 [99] ftRegFile (oneBlockFs twoSlots) = r at hspec
    cases hspec with
    | added _ _ _ _ => exact ⟨_, _, rfl⟩
    | failed _ _ hfull => exact absurd hspace hfull
  have hrun : DirRun smallFs oneBlockDir (oneBlockFs twoSlots) [.add 8 [99] ftRegFile] dir' s' :=
    .cons ⟨by decide, hentry, two_names (by decide)⟩ oneBlock_growable
      (congrArg Except.ok hstep) (.nil _ _)
  have h := (directory_map ⟨_, two_dir⟩ hrun).2.1
  refine ⟨dir', s', hrun, ?_, ?_⟩
  · rw [h [99] (by decide), foldl_cons, foldl_nil, DirOp.update, update_self]
  · rw [h [98] (by decide), foldl_cons, foldl_nil, DirOp.update,
      update_of_ne (by decide), two_names (by decide), if_pos rfl]

/-! ## A directory without blocks -/

/-- A directory without blocks that is mapped by extents. -/
def emptyExtentDir : Inode :=
  ⟨0, ⟨0, extentsFl, fun i => if i = 0 then extentMagic else if i = 1 then 4 else 0⟩⟩

/-- The first entry of the directory is written to the block that has the first word of the extent
header as its number. The call succeeds, but the name is not found. -/
theorem directory_map_fails :
    let s : Fs := ⟨List.replicate superblockSize 0, smallDisk⟩
    WellFormed smallFs (· < 5) emptyExtentDir s ∧
      (DirOp.add 7 [97] ftRegFile).Allowed smallFs emptyExtentDir s ∧
      ∃ dir' s', (DirOp.add 7 [97] ftRegFile).run smallFs emptyExtentDir s = .ok (0, dir', s') ∧
        dirLookup smallFs dir'.raw [97] s'.disk = 0 ∧ ¬ WellFormed smallFs (· < 5) dir' s' := by
  intro s
  have hplace : ∀ k b, place smallFs emptyExtentDir.raw s.disk k ≠ some b := by
    rintro (lb | i) b h <;> cases h
  refine ⟨⟨[], ⟨?_, ?_, ?_, ?_⟩, rfl, rfl, fun _ => by decide, fun _ => by decide,
    fun _ _ h => by cases h⟩,
    ⟨by decide, ⟨by decide, by decide, by decide⟩, rfl⟩, _, _, rfl, rfl, ?_⟩
  · exact smallDisk_consistent.mono fun b ⟨_, k, hk⟩ => absurd hk (hplace k b)
  · exact fun _ k _ _ b hk => absurd hk (hplace k b)
  · exact fun _ k b hk => absurd hk (hplace k b)
  · exact fun _ k b hk => absurd hk (hplace k b)
  · rintro ⟨blocks, hdir⟩
    have hblocks : 0 < blocks.length := by
      refine Nat.pos_of_ne_zero fun hzero => ?_
      have hsize := hdir.size
      rw [hzero, Nat.zero_mul] at hsize
      exact absurd hsize (by decide)
    obtain ⟨b, hb⟩ := hdir.mapped hblocks
    cases hb

/-! ## Listing a directory

The position follows the records of the kernel, which all have the same size, and the records for the
user are made of them. None is left out there, since none is longer. -/

open Slot

variable {t : Slot} {slots rest : List Slot} {buf pre post part : List UInt8}
  {size count pos pos' : ℕ} {c : GetdentsCall} {kd : List Dirent}

/-- The entries of the slots in use, in their order. -/
def liveEntries : ℕ → List Slot → List Dirent
  | _, [] => []
  | pos, t :: slots =>
    let rest := liveEntries (pos + t.recLen) slots
    if t.ino = 0 then rest else ⟨t.ino, pos + t.recLen, t.fileType, t.name⟩ :: rest

/-- The slots in use have names, without zeros. -/
def Named (slots : List Slot) : Prop := ∀ t ∈ slots, t.ino ≠ 0 → t.nameLen ≠ 0 ∧ 0 ∉ t.name

/-- The slots from a position on have been listed up to another position. -/
structure Listed (buf : List UInt8) (size pos : ℕ) (slots : List Slot) (kd : List Dirent) (pos' : ℕ)
    (rest : List Slot) : Prop where
  place : At buf size pos' rest
  named : Named rest
  entries : liveEntries pos slots = kd ++ liveEntries pos' rest
  names : ∀ de ∈ kd, de.dName.length < 2 ^ 8 ∧ 0 ∉ de.dName

/-! ## The records of the kernel -/

theorem deFileType_eq : deFileType (pre ++ (t.bytes ++ post)) pre.length = t.fileType := by
  have h := t.type_lt
  have hsplit : t.bytes ++ post = (toBytes 4 t.ino ++ toBytes 2 t.recLen ++ toBytes 1 t.nameLen) ++
      (toBytes 1 t.fileType ++ (t.body ++ post)) := by
    simp only [Slot.bytes, header, append_assoc]
  rw [deFileType, field_add rfl, hsplit]
  exact field_toBytes (by simp) h

/-- The loop goes on to the last slot, or as long as there is space. -/
theorem readdirLoop_spec (slots : List Slot) : ∀ pos fuel written, At buf size pos slots →
    Named slots → slots.length ≤ fuel → written ≤ count →
    ∃ kd pos' rest, readdirLoop buf size count fuel pos written = (kd, pos') ∧
      Listed buf size pos slots kd pos' rest ∧ written + recordSize * kd.length ≤ count ∧
      (rest = [] ∨ count < written + recordSize * kd.length + recordSize) := by
  induction slots with
  | nil =>
    intro pos fuel written hat hnamed _ hroom
    refine ⟨[], pos, [], ?_, ⟨hat, hnamed, rfl, by simp⟩, hroom, Or.inl rfl⟩
    cases fuel with
    | zero => rfl
    | succ fuel => exact if_pos (Or.inl (by simp [hat.size_eq]))
  | cons t slots ih =>
    intro pos fuel written hat hnamed hfuel hroom
    obtain ⟨fuel, rfl, hle⟩ := exists_fuel hfuel
    by_cases hfull : count < written + recordSize
    · exact ⟨[], pos, t :: slots, if_pos (Or.inr hfull), ⟨hat, hnamed, rfl, by simp⟩, hroom,
        Or.inr hfull⟩
    obtain ⟨hlt, hnext, pre, post, hbuf, rfl⟩ := hat.split
    have hrest := fun written => ih _ fuel written hnext
      (fun u hu => hnamed u (mem_cons_of_mem t hu)) hle
    rw [readdirLoop, if_neg (by omega), hbuf, deRecLen_eq, if_neg t.recLen_pos.ne', deInode_eq,
      deNameLen_eq, ← hbuf]
    by_cases hfree : t.ino = 0
    · obtain ⟨kd, pos', rest, heq, hlisted, hfits, hend⟩ := hrest written hroom
      refine ⟨kd, pos', rest, (if_pos (Or.inl hfree)).trans heq, ⟨hlisted.place, hlisted.named, ?_,
        hlisted.names⟩, hfits, hend⟩
      rw [liveEntries, if_pos hfree, hlisted.entries]
    · obtain ⟨hname, hzero⟩ := hnamed t mem_cons_self hfree
      obtain ⟨kd, pos', rest, heq, hlisted, hfits, hend⟩ :=
        hrest (written + recordSize) (not_lt.mp hfull)
      refine ⟨⟨t.ino, pre.length + t.recLen, t.fileType, t.name⟩ :: kd, pos', rest, ?_,
        ⟨hlisted.place, hlisted.named, ?_, ?_⟩, ?_, hend.imp_right fun hfew => ?_⟩
      · rw [if_neg (not_or.mpr ⟨hfree, hname⟩), heq, hbuf, deFileType_eq, drop_header,
          take_append_of_le_length t.fits]
        rfl
      · rw [liveEntries, if_neg hfree, hlisted.entries, cons_append]
      · refine forall_mem_cons.mpr ⟨⟨?_, hzero⟩, hlisted.names⟩
        exact (length_take_le _ _).trans_lt t.nameLen_lt
      · rw [length_cons, Nat.mul_succ]
        omega
      · rw [length_cons, Nat.mul_succ]
        omega

/-! ## The records for the user -/

theorem length_linuxDirent (de : Dirent) :
    (linuxDirent de).length = (19 + de.dName.length + 1 + 7) / 8 * 8 := by
  simp only [linuxDirent, length_append, length_toBytes, length_replicate]
  omega

theorem convertRecords_eq (kd : List Dirent) : ∀ written,
    (∀ de ∈ kd, de.dName.length < 2 ^ 8 ∧ 0 ∉ de.dName) → written + recordSize * kd.length ≤ count →
    convertRecords count kd written = kd.flatMap linuxDirent := by
  induction kd with
  | nil => exact fun _ _ _ => rfl
  | cons de kd ih =>
    intro written hnames hroom
    obtain ⟨hlen, hzero⟩ := hnames de mem_cons_self
    have hname : { de with dName := de.dName.takeWhile (· ≠ 0) } = de := by
      rw [takeWhile_eq_self_iff.mpr fun b hb => decide_eq_true (ne_of_mem_of_not_mem hb hzero)]
    have hrecord := length_linuxDirent de
    rw [length_cons] at hroom
    simp only [recordSize] at hroom ih
    rw [convertRecords, hname, if_neg (by omega), flatMap_cons,
      ih _ (fun e he => hnames e (mem_cons_of_mem de he)) (by omega)]

theorem flatMap_linuxDirent_eq_nil (h : kd.flatMap linuxDirent = []) : kd = [] := by
  refine eq_nil_iff_forall_not_mem.mpr fun de hde => ?_
  have hlen := length_linuxDirent de
  rw [flatMap_eq_nil_iff.mp h de hde, length_nil] at hlen
  omega

/-! ## Calls -/

section

variable (h : Dir sbi reserved dir s blocks)
  (hat : At (filled (max 4096 dir.iSize) (slotBytes blocks.flatten)) dir.iSize pos slots)
  (hnamed : Named slots)

include h hat hnamed

theorem Dir.readdir_ok {noMemory : Bool} (hcount : recordSize ≤ count)
    (hok : readdir sbi dir noMemory pos count s.disk = .ok (kd, pos')) :
    ∃ rest, Listed
      (filled (max 4096 dir.iSize) (slotBytes blocks.flatten)) dir.iSize pos slots kd pos'
      rest ∧ recordSize * kd.length ≤ count ∧ (kd = [] → rest = []) := by
  have hlen := length_le_slotBytes slots
  have hsize := hat.size_eq
  unfold readdir at hok
  split at hok
  · obtain rfl : slots = [] := eq_nil_of_length_eq_zero (by omega)
    cases hok
    exact ⟨[], ⟨hat, hnamed, rfl, by simp⟩, by simp, fun _ => rfl⟩
  split at hok
  · cases hok
  obtain ⟨kd1, pos1, rest, heq, hlisted, hfits, hend⟩ :=
    readdirLoop_spec slots pos dir.iSize 0 hat hnamed (by omega) (Nat.zero_le count)
  rw [h.readData_eq] at hok
  obtain ⟨rfl, rfl⟩ := Prod.mk.inj (heq.symm.trans (Except.ok.inj hok))
  refine ⟨rest, hlisted, by omega, fun hnone => hend.resolve_right ?_⟩
  rw [hnone]
  simpa using hcount

/-- A call that succeeds returns the next entries, and none only behind the last one. -/
theorem Dir.sysGetdents_ok (hcount : recordSize ≤ c.count ∧ c.count ≤ 4096)
    (hok : (sysGetdents sbi dir s.disk c pos).1 = .ok part) :
    ∃ kd rest, part = kd.flatMap linuxDirent ∧ (kd = [] → rest = []) ∧
      Listed (filled (max 4096 dir.iSize) (slotBytes blocks.flatten)) dir.iSize pos slots kd
        (sysGetdents sbi dir s.disk c pos).2 rest := by
  generalize hr : sysGetdents sbi dir s.disk c pos = r at hok ⊢
  unfold sysGetdents at hr
  split at hr
  · cases hr
    cases hok
  rw [min_eq_left hcount.2] at hr
  split at hr
  · cases hr
    cases hok
  next hread =>
    obtain ⟨rest, hlisted, -, hend⟩ := h.readdir_ok hat hnamed hcount.1 hread
    cases hr
    cases hok
    exact ⟨[], rest, rfl, hend, hlisted⟩
  next hread =>
    obtain ⟨rest, hlisted, hfits, hend⟩ := h.readdir_ok hat hnamed hcount.1 hread
    rw [convertRecords_eq _ 0 hlisted.names (by omega)] at hr
    split at hr
    · cases hr
      cases hok
    dsimp only at hr
    split at hr
    · cases hr
      cases hok
    cases hr
    cases hok
    exact ⟨_, rest, rfl, hend, hlisted⟩

end

theorem Dir.getdentsCalls_complete (h : Dir sbi reserved dir s blocks) (calls : List GetdentsCall) :
    ∀ pos slots, At (filled (max 4096 dir.iSize) (slotBytes blocks.flatten)) dir.iSize pos slots →
    Named slots → (∀ c ∈ calls, recordSize ≤ c.count ∧ c.count ≤ 4096) →
    ∀ parts : List (List UInt8),
    getdentsCalls sbi dir s.disk pos calls = (parts ++ [[]]).map Except.ok →
    ∃ groups : List (List Dirent), groups.flatten = liveEntries pos slots ∧
      parts = groups.map (flatMap linuxDirent) := by
  induction calls with
  | nil =>
    intro pos slots _ _ _ parts hcalls
    simp [getdentsCalls] at hcalls
  | cons c calls ih =>
    intro pos slots hat hnamed hcount parts hcalls
    rw [forall_mem_cons] at hcount
    cases parts with
    | nil =>
      obtain ⟨kd, rest, hpart, hend, hlisted⟩ :=
        h.sysGetdents_ok hat hnamed hcount.1 (cons.inj hcalls).1
      obtain rfl := flatMap_linuxDirent_eq_nil hpart.symm
      obtain rfl := hend rfl
      exact ⟨[], hlisted.entries.symm, rfl⟩
    | cons part parts =>
      obtain ⟨hok, hnext⟩ := cons.inj hcalls
      obtain ⟨kd, rest, rfl, -, hlisted⟩ := h.sysGetdents_ok hat hnamed hcount.1 hok
      obtain ⟨groups, hall, rfl⟩ := ih _ rest hlisted.place hlisted.named hcount.2 parts hnext
      exact ⟨kd :: groups, by rw [flatten_cons, hall, hlisted.entries], rfl⟩

/-- A listing that ends with an empty result returns every entry in use once, in the order of the
slots, and each result is made of whole records. -/
theorem getdents_enumerates (h : Dir sbi reserved dir s blocks) (hnamed : Named blocks.flatten)
    {calls : List GetdentsCall} (hcount : ∀ c ∈ calls, recordSize ≤ c.count ∧ c.count ≤ 4096)
    {parts : List (List UInt8)}
    (hcalls : getdentsCalls sbi dir s.disk 0 calls = (parts ++ [[]]).map Except.ok) :
    ∃ groups : List (List Dirent), groups.flatten = liveEntries 0 blocks.flatten ∧
      parts = groups.map (flatMap linuxDirent) :=
  h.getdentsCalls_complete calls 0 _ (h.at_filled _) hnamed hcount parts hcalls

/-- Three calls list a directory with two entries. -/
theorem getdents_enumerates_one_block : ∃ calls parts, ∃ groups : List (List Dirent),
    getdentsCalls smallFs oneBlockDir (oneBlockFs twoSlots).disk 0 calls =
      (parts ++ [[]]).map Except.ok ∧
    groups.flatten = [⟨6, 12, ftDir, [98]⟩, ⟨7, 1024, ftRegFile, [97]⟩] ∧
    parts = groups.map (flatMap linuxDirent) := by
  have hnamed : Named [twoSlots].flatten := by
    unfold Named
    decide
  have hcalls : getdentsCalls smallFs oneBlockDir (oneBlockFs twoSlots).disk 0
      [⟨recordSize, none⟩, ⟨4096, none⟩, ⟨4096, none⟩] =
      ([linuxDirent ⟨6, 12, ftDir, [98]⟩, linuxDirent ⟨7, 1024, ftRegFile, [97]⟩] ++
        [[]]).map Except.ok := by
    decide +kernel
  have hlive : liveEntries 0 [twoSlots].flatten =
      [⟨6, 12, ftDir, [98]⟩, ⟨7, 1024, ftRegFile, [97]⟩] := by decide +kernel
  obtain ⟨groups, hall, hparts⟩ := getdents_enumerates two_dir hnamed (by decide) hcalls
  exact ⟨_, _, groups, hcalls, hall.trans hlive, hparts⟩

end NoobKernel.Ext4
