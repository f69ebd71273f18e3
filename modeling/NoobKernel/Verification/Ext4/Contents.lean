import NoobKernel.Verification.Ext4.Holes
import NoobKernel.Verification.Ext4.Write

/-! # Contents of files

A file is a size and a byte for each position. A sequence of writes leaves each byte as it was
written last, and the bytes of other files and of the file system as they were. -/

namespace NoobKernel.Ext4

open Library Function List Nat

variable {ι : Type*} [DecidableEq ι] {sbi : SbInfo} {reserved : ℕ → Prop} {st : State ι}
  {cont : ι → Contents} {c : WriteCall ι} {f : ι} {n : ℕ} {r : ℤ}

/-- What a file holds, and the logical blocks that have been written to. -/
structure Contents where
  bytes : Disk UInt8
  size : ℕ
  written : ℕ → Prop

def Contents.empty : Contents := ⟨fun _ => 0, 0, fun _ => False⟩

/-- The contents after bytes have been written at a position. -/
def Contents.write (sbi : SbInfo) (p : ℕ) (src : List UInt8) (c : Contents) : Contents where
  bytes := c.bytes.store p src
  size := if src = [] then c.size else max c.size (p + src.length)
  written lb := c.written lb ∨ ∃ a, p ≤ a ∧ a < p + src.length ∧ a / sbi.blockSize = lb

/-- One call, with what it says that it has written. -/
def stepWrite (sbi : SbInfo) (x : State ι × (ι → Contents)) (c : WriteCall ι) :
    State ι × (ι → Contents) :=
  let r := x.1.write sbi c
  (r.2, update x.2 c.file ((x.2 c.file).write sbi c.pos (c.src.take r.1.toNat)))

def runWrites (sbi : SbInfo) (calls : List (WriteCall ι)) (fs : Fs) : State ι × (ι → Contents) :=
  calls.foldl (stepWrite sbi) (⟨fun _ => createdInode, fs⟩, fun _ => .empty)

/-- A call that stays within the logical blocks of a file. -/
def WriteCall.InReach (sbi : SbInfo) (c : WriteCall ι) : Prop :=
  c.pos + c.src.length ≤ 2 ^ 32 * sbi.blockSize

instance (c : WriteCall ι) : Decidable (c.InReach sbi) := inferInstanceAs (Decidable (_ ≤ _))

/-! ## The invariant -/

def State.raws (st : State ι) (f : ι) : RawInode := (st.files f).raw

/-- A file mapped by blocks, with its size and with blocks for what has been written. -/
structure HasSize (sbi : SbInfo) (d : Disk UInt8) (inode : Inode) (c : Contents) : Prop where
  blocks : inode.raw.extents = false
  written : ∀ lb, c.written lb → mapping sbi inode.raw d lb ≠ none
  size : inode.iSize = c.size
  rawSize : inode.raw.iSize = c.size
  bound : c.size ≤ 2 ^ 32 * sbi.blockSize

/-- The files have their contents. -/
structure Has (sbi : SbInfo) (reserved : ℕ → Prop) (st : State ι) (cont : ι → Contents) : Prop where
  layout : Layout sbi reserved st.raws st.fs
  stored : Stored sbi st.raws (fun f => (cont f).bytes) st.fs.disk
  file : ∀ f, HasSize sbi st.fs.disk (st.files f) (cont f)

omit [DecidableEq ι] in
theorem has_created {fs : Fs} (h : Consistent sbi reserved (fun _ => False) fs) :
    Has sbi reserved (⟨fun _ : ι => createdInode, fs⟩ : State ι) fun _ => .empty := by
  have hplace : ∀ k, place sbi createdInode.raw fs.disk k = none := by
    rintro (lb | i)
    · refine blockMapping_eq_none.mpr ?_
      unfold blockEntry
      split
      · rfl
      · exact if_neg fun hin => hin.2 rfl
    · exact if_neg fun hin => hin.2 rfl
  have hnone : ∀ k b, place sbi createdInode.raw fs.disk k ≠ some b := by
    intro k b hb
    rw [hplace k] at hb
    cases hb
  have hext : createdInode.raw.extents = false := by decide
  refine ⟨⟨?_, ?_, ?_, ?_⟩, ⟨?_, fun _ _ _ => rfl⟩,
    fun _ => ⟨hext, fun _ => False.elim, rfl, rfl, zero_le _⟩⟩
  · exact h.mono fun b ⟨_, k, hb⟩ => hnone k b hb
  · exact fun _ k _ _ b hb => absurd hb (hnone k b)
  · exact fun _ k b hb => absurd hb (hnone k b)
  · exact fun _ k b hb => absurd hb (hnone k b)
  · exact fun _ lb b hb => absurd hb (hnone (.data lb) b)

/-! ## One call -/

/-- What a call does to the files and the file system. -/
structure WriteSpec (sbi : SbInfo) (reserved : ℕ → Prop) (st : State ι) (cont : ι → Contents)
    (c : WriteCall ι) (n : ℕ) (r : ℤ × State ι) : Prop where
  le : n ≤ c.src.length
  result : LoopResult 0 n r.1
  has : Has sbi reserved r.2 (update cont c.file ((cont c.file).write sbi c.pos (c.src.take n)))
  file_other : ∀ f, f ≠ c.file → r.2.files f = st.files f
  place_other : ∀ f, f ≠ c.file → ∀ k,
    place sbi (st.raws f) r.2.fs.disk k = place sbi (st.raws f) st.fs.disk k
  block_other : ∀ f, f ≠ c.file → ∀ b, Belongs sbi (st.raws f) st.fs.disk b →
    r.2.fs.disk.block sbi.blockSize b = st.fs.disk.block sbi.blockSize b
  frame : ∀ a, reserved (a / sbi.blockSize) → ¬ Bookkeeping sbi st.fs.disk a →
    r.2.fs.disk a = st.fs.disk a

theorem LoopResult.toNat (h : LoopResult 0 n r) : r.toNat = n := by
  rcases h with rfl | ⟨hzero, rfl⟩
  · simp
  · have hn : n = 0 := by omega
    rw [hn]
    rfl

theorem LoopResult.pos (h : LoopResult 0 n r) : 0 < r ↔ 0 < n := by
  rcases h with rfl | ⟨hzero, rfl⟩
  · simp
  · have hn : n = 0 := by omega
    rw [hn]
    decide

theorem writeFile_eq {inode : Inode} {p : ℕ} {src : List UInt8} {s s' : Fs} {raw' : RawInode}
    (hloop : writeLoop sbi src.length p src 0 inode.raw s = (r, p + n, raw', s'))
    (hr : LoopResult 0 n r) (hsize : raw'.iSize = inode.iSize) :
    ∃ size, writeFile sbi inode p src s = (r, ⟨size, { raw' with iSize := size }⟩, s') ∧
      size = if n = 0 then inode.iSize else max inode.iSize (p + n) := by
  unfold writeFile
  rw [hloop]
  have hpos := hr.pos
  by_cases hgrow : 0 < r ∧ inode.iSize < p + n
  · refine ⟨p + n, if_pos hgrow, ?_⟩
    rw [if_neg (by omega)]
    omega
  · refine ⟨inode.iSize, (if_neg hgrow).trans ?_, ?_⟩
    · rw [← hsize]
    · split <;> omega

theorem Has.write (h : Has sbi reserved st cont) (hc : c.InReach sbi) :
    ∃ n, WriteSpec sbi reserved st cont c n (st.write sbi c) := by
  obtain ⟨n, r, raw', s', hloop, hn, hr, hwrites⟩ := writeLoop_spec (f := c.file) c.src.length c.pos
    c.src 0 st.raws (fun f => (cont f).bytes) st.fs le_rfl hc h.layout
      (h.file c.file).blocks h.stored
  have hsize := hwrites.size.trans ((h.file c.file).rawSize.trans (h.file c.file).size.symm)
  obtain ⟨size, heq, hnew⟩ := writeFile_eq hloop hr hsize
  have hstep : st.write sbi c =
      (r, ⟨update st.files c.file ⟨size, { raw' with iSize := size }⟩, s'⟩) := by
    rw [State.write, heq]
  have hlen : (c.src.take n).length = n := length_take_of_le hn
  have hsizes : size = ((cont c.file).write sbi c.pos (c.src.take n)).size := by
    rw [hnew, (h.file c.file).size, Contents.write, hlen]
    refine if_congr ?_ rfl rfl
    rw [← length_eq_zero_iff, hlen]
  set st' : State ι := ⟨update st.files c.file ⟨size, { raw' with iSize := size }⟩, s'⟩
  have hself : st'.files c.file = ⟨size, { raw' with iSize := size }⟩ := update_self ..
  have hother : ∀ f, f ≠ c.file → st'.files f = st.files f := fun f hf => update_of_ne hf _ _
  -- the size has no part in where the blocks are
  have hplace : ∀ f k, place sbi (st'.raws f) s'.disk k =
      place sbi (update st.raws c.file raw' f) s'.disk k := by
    intro f k
    by_cases hf : f = c.file
    · rw [hf, State.raws, hself, update_self]
      cases k <;> rfl
    · rw [update_of_ne hf, State.raws, hother f hf, State.raws]
  have hbytes : (fun f => (update cont c.file
      ((cont c.file).write sbi c.pos (c.src.take n)) f).bytes) =
      update (fun f => (cont f).bytes) c.file ((cont c.file).bytes.store c.pos (c.src.take n)) := by
    funext f
    by_cases hf : f = c.file
    · subst hf
      simp [Contents.write]
    · simp [hf]
  have hmap : ∀ f lb, mapping sbi (st'.raws f) s'.disk lb =
      mapping sbi (update st.raws c.file raw' f) s'.disk lb := fun f lb => hplace f (.data lb)
  rw [hstep]
  refine ⟨n, hn, hr, ⟨hwrites.layout.of_place hplace hwrites.layout.consistent, ?_, fun f => ?_⟩,
    hother,
    hwrites.place_other, hwrites.block_other, hwrites.frame⟩
  · rw [hbytes]
    refine ⟨fun f lb b hb => ?_, fun f a ha => ?_⟩
    · rw [hmap] at hb
      exact hwrites.stored.block f lb b hb
    · rw [hmap] at ha
      exact hwrites.stored.hole f a ha
  · have hfile := h.file f
    by_cases hf : f = c.file
    · subst hf
      rw [hself, update_self]
      refine ⟨hwrites.blocks, ?_, hsizes, hsizes, ?_⟩
      · rintro lb (hold | ⟨a, hle, hlt, rfl⟩)
        · exact hwrites.kept lb (hfile.written lb hold)
        · exact hwrites.written a hle hlt
      · rw [← hsizes, hnew, hfile.size]
        split
        · exact hfile.bound
        · exact max_le hfile.bound (le_trans (Nat.add_le_add_left hn _) hc)
    · rw [hother f hf, update_of_ne hf]
      refine ⟨hfile.blocks, fun lb hlb hnone => hfile.written lb hlb ?_, hfile.size, hfile.rawSize,
        hfile.bound⟩
      exact (hwrites.place_other f hf (.data lb)).symm.trans hnone

/-! ## Reading back -/

section

omit [DecidableEq ι]

variable (h : Has sbi reserved st cont)

include h

theorem Has.fileByte_eq {a : ℕ}
    (hmap : mapping sbi (st.raws f) st.fs.disk (a / sbi.blockSize) ≠ none) :
    fileByte sbi (st.raws f) st.fs.disk a = (cont f).bytes a := by
  obtain ⟨b, hb⟩ := Option.ne_none_iff_exists'.mp hmap
  have hmod := mod_lt a sbi.blockSize_pos
  have hat := congrArg (·[a % sbi.blockSize]?) (h.stored.block f _ b hb)
  simp only [Disk.block, Disk.getElem?_slice hmod, Option.some.injEq] at hat
  rw [fileByte, getFileBlock_of_mapping hb, hat, mul_comm, div_add_mod]

theorem Has.lt_of_mapped {lb : ℕ} (hmap : mapping sbi (st.raws f) st.fs.disk lb ≠ none) :
    lb < directBlocks + sbi.blockSize / 4 := by
  by_contra hbeyond
  rw [State.raws, mapping_of_blocks (h.file f).blocks] at hmap
  exact hmap (blockMapping_eq_none.mpr (blockEntry_beyond (not_lt.mp hbeyond)))

theorem Has.readData_eq {pos len : ℕ} (hsize : pos + len ≤ (cont f).size)
    (hmapped : ∀ a, pos ≤ a → a < pos + len →
      mapping sbi (st.raws f) st.fs.disk (a / sbi.blockSize) ≠ none) :
    readData sbi (st.raws f) pos len st.fs.disk = .ok ((cont f).bytes.slice pos len) := by
  have hsize' : (st.raws f).iSize = (cont f).size := (h.file f).rawSize
  cases len with
  | zero =>
    unfold readData
    split
    · rfl
    next hlt =>
      have hmod := mod_le (pos + 0) (2 ^ 64)
      dsimp only
      rw [if_neg (by omega)]
      rfl
  | succ len =>
    have hbound := (h.file f).bound
    have hblock := sbi.blockSize_le
    have haddr : Addressable sbi (st.raws f) pos (len + 1) := by
      refine ⟨fun hext => ?_, by omega, fun a hle hlt _ => ?_⟩
      · exact absurd ((h.file f).blocks.symm.trans hext) Bool.false_ne_true
      · rw [State.raws, (h.file f).blocks, if_neg Bool.false_ne_true]
        exact h.lt_of_mapped (hmapped a hle hlt)
    have hblocks : NoErrorBlock sbi (st.raws f) st.fs.disk :=
      fun lb b hb => (h.layout.lt f (.data lb) b hb).ne
    rw [readData_mapped (by omega) haddr hblocks fun _ a hle hlt _ => hmapped a hle hlt, hsize',
      min_eq_left (by omega)]
    exact congrArg Except.ok (Disk.slice_congr fun a hle hlt => h.fileByte_eq (hmapped a hle hlt))

end

/-! ## Sequences of calls -/

/-- The sizes of files are as they should be, and reads of written blocks return the contents. -/
def ReadsBack (sbi : SbInfo) (st : State ι) (cont : ι → Contents) : Prop :=
  ∀ f, (st.files f).iSize = (cont f).size ∧ ∀ pos len, pos + len ≤ (cont f).size →
    (∀ a, pos ≤ a → a < pos + len → (cont f).written (a / sbi.blockSize)) →
    readData sbi (st.raws f) pos len st.fs.disk = .ok ((cont f).bytes.slice pos len)

/-- A call that returns a number of bytes has written them, and has changed no other file and no
reserved block besides the bookkeeping. -/
structure CallRight (sbi : SbInfo) (reserved : ℕ → Prop) (st : State ι) (c : WriteCall ι)
    (r : ℤ × State ι) : Prop where
  bytes : ∀ n : ℕ, 0 < n → r.1 = n → n ≤ c.src.length ∧
    readData sbi (r.2.raws c.file) c.pos n r.2.fs.disk = .ok (c.src.take n) ∧
    (r.2.files c.file).iSize = max (st.files c.file).iSize (c.pos + n)
  other : ∀ f, f ≠ c.file → r.2.files f = st.files f ∧
    (∀ k, place sbi (st.raws f) r.2.fs.disk k = place sbi (st.raws f) st.fs.disk k) ∧
    ∀ b, Belongs sbi (st.raws f) st.fs.disk b →
      r.2.fs.disk.block sbi.blockSize b = st.fs.disk.block sbi.blockSize b
  frame : ∀ a, reserved (a / sbi.blockSize) → ¬ Bookkeeping sbi st.fs.disk a →
    r.2.fs.disk a = st.fs.disk a

theorem Has.step (h : Has sbi reserved st cont) (hc : c.InReach sbi) :
    Has sbi reserved (stepWrite sbi (st, cont) c).1 (stepWrite sbi (st, cont) c).2 := by
  obtain ⟨n, hspec⟩ := h.write hc
  have hn := hspec.result.toNat
  simp only [stepWrite, hn]
  exact hspec.has

theorem Has.run (calls : List (WriteCall ι)) : ∀ x : State ι × (ι → Contents),
    (∀ c ∈ calls, c.InReach sbi) → Has sbi reserved x.1 x.2 →
    Has sbi reserved (calls.foldl (stepWrite sbi) x).1 (calls.foldl (stepWrite sbi) x).2 := by
  induction calls with
  | nil => exact fun _ _ h => h
  | cons c calls ih =>
    intro x hcalls h
    exact ih _ (fun c' hc' => hcalls c' (mem_cons_of_mem c hc')) (h.step (hcalls c mem_cons_self))

theorem Has.callRight (h : Has sbi reserved st cont) (hc : c.InReach sbi) :
    CallRight sbi reserved st c (st.write sbi c) := by
  obtain ⟨n, hspec⟩ := h.write hc
  refine ⟨fun m hm hres => ?_, fun f hf => ?_, hspec.frame⟩
  · have hmn : m = n := by
      rw [← hspec.result.toNat, hres, Int.toNat_natCast]
    subst hmn
    have hlen : (c.src.take m).length = m := length_take_of_le hspec.le
    have hne : c.src.take m ≠ [] := by
      rw [← length_pos_iff, hlen]
      exact hm
    have hsize : ((cont c.file).write sbi c.pos (c.src.take m)).size =
        max (cont c.file).size (c.pos + m) := by
      rw [Contents.write, if_neg hne, hlen]
    have hcont : update cont c.file ((cont c.file).write sbi c.pos (c.src.take m)) c.file =
        (cont c.file).write sbi c.pos (c.src.take m) := update_self ..
    have hend : c.pos + m ≤ (update cont c.file
        ((cont c.file).write sbi c.pos (c.src.take m)) c.file).size := by
      rw [hcont, hsize]
      exact le_max_right _ _
    have hread := hspec.has.readData_eq hend fun a hle hlt => (hspec.has.file c.file).written _ (by
      rw [hcont]
      exact Or.inr ⟨a, hle, by rwa [hlen], rfl⟩)
    rw [hcont, Contents.write, Disk.slice_store_eq hlen] at hread
    refine ⟨hspec.le, hread, ?_⟩
    rw [(hspec.has.file c.file).size, hcont, hsize, (h.file c.file).size]
  · exact ⟨hspec.file_other f hf, hspec.place_other f hf, hspec.block_other f hf⟩

/-- Files keep what has been written to them, over every sequence of writes. -/
theorem file_contents (sbi : SbInfo) (reserved : ℕ → Prop) (fs : Fs)
    (hfs : Consistent sbi reserved (fun _ => False) fs) (calls : List (WriteCall ι))
    (hcalls : ∀ c ∈ calls, c.InReach sbi) :
    ReadsBack sbi (runWrites sbi calls fs).1 (runWrites sbi calls fs).2 ∧
      ∀ c : WriteCall ι, c.InReach sbi →
        CallRight sbi reserved (runWrites sbi calls fs).1 c
          ((runWrites sbi calls fs).1.write sbi c) := by
  have h : Has sbi reserved (runWrites sbi calls fs).1 (runWrites sbi calls fs).2 :=
    Has.run calls _ hcalls (has_created hfs)
  refine ⟨fun f => ⟨(h.file f).size, fun pos len hsize hwritten => ?_⟩, fun c hc => h.callRight hc⟩
  exact h.readData_eq hsize fun a hle hlt => (h.file f).written _ (hwritten a hle hlt)

/-- A device with one group: its bitmap is block 3, and blocks 1 to 5 are in use. -/
def smallDisk : Disk UInt8 := fun a =>
  if a = 2048 then 3 else if a = 2060 then 9 else if a = 3072 then 31 else 0

theorem smallDisk_consistent :
    Consistent smallFs (· < 5) (· = 5) ⟨List.replicate superblockSize 0, smallDisk⟩ := by
  have hbitmap : bitmapBlock smallFs smallDisk 0 = 3 := by
    rfl
  have hsize : smallFs.blockSize = 1024 := rfl
  have hactive : ∀ bg, Active smallFs smallDisk bg → bg = 0 := fun bg hbg => lt_one_iff.mp hbg.1
  have hdescIn : ∀ bg a, bg < smallFs.groupsCount → InDesc smallFs bg a → 2048 ≤ a ∧ a < 2080 := by
    intro bg a hbg ha
    obtain rfl := lt_one_iff.mp hbg
    exact ha
  refine ⟨length_replicate, by decide, by decide, ?_, ?_, ?_, ?_, ?_⟩
  · intro a ha
    cases ha with
    | super h =>
      simp only [InSuper, superblockOffset, superblockSize] at h
      rw [hsize]
      omega
    | desc bg hbg h =>
      have hin := hdescIn bg a hbg h
      rw [hsize]
      omega
    | bitmap bg hbg h =>
      rw [h, hactive bg hbg, hbitmap]
      decide
  · intro bg a hbg h
    rw [hactive bg hbg, hbitmap, hsize]
    simp only [InSuper, superblockOffset, superblockSize] at h
    omega
  · intro bg bg' a hbg hbg' h
    have hin := hdescIn bg' a hbg' h
    rw [hactive bg hbg, hbitmap, hsize]
    omega
  · intro bg bg' hbg hbg' _
    rw [hactive bg hbg, hactive bg' hbg']
  · intro bg i hbg hi hclear
    obtain rfl := hactive bg hbg
    have hlt : i < 8192 := lt_of_lt_of_le hi (min_le_left _ _)
    have hlarge : 5 ≤ i := by
      by_contra hsmall
      have hcases : i = 0 ∨ i = 1 ∨ i = 2 ∨ i = 3 ∨ i = 4 := by omega
      rcases hcases with rfl | rfl | rfl | rfl | rfl <;> exact absurd hclear (by decide)
    have hfirst : smallFs.sFirstDataBlock = 1 := rfl
    refine ⟨?_, ?_, ?_⟩
    · simp only [noBlock]
      omega
    · omega
    · omega

/-- A byte is written to each of two files, and then another one. -/
theorem file_contents_small :
    let calls : List (WriteCall Bool) := [⟨true, 5000, [1]⟩, ⟨false, 0, [2]⟩]
    let r := runWrites smallFs calls ⟨List.replicate superblockSize 0, smallDisk⟩
    ReadsBack smallFs r.1 r.2 ∧
      CallRight smallFs (· < 5) r.1 ⟨true, 0, [3]⟩ (r.1.write smallFs ⟨true, 0, [3]⟩) ∧
      (r.1.write smallFs ⟨true, 0, [3]⟩).1 = 1 := by
  have hcalls : ∀ c ∈ [(⟨true, 5000, [1]⟩ : WriteCall Bool), ⟨false, 0, [2]⟩],
    c.InReach smallFs := by
    simp only [mem_cons, not_mem_nil, or_false]
    rintro c (rfl | rfl) <;> decide
  have h := file_contents _ _ _ (smallDisk_consistent.mono fun _ => False.elim) _ hcalls
  exact ⟨h.1, h.2 _ (by decide), by decide +kernel⟩

/-! ## Sequences of allocations -/

def allocBlocks (sbi : SbInfo) : ℕ → Fs → List ℕ
  | 0, _ => []
  | n + 1, s => (allocBlock sbi s).1 :: allocBlocks sbi n (allocBlock sbi s).2

/-- Blocks without an owner, none of them twice. -/
def Fresh (reserved owned : ℕ → Prop) (bs : List ℕ) : Prop :=
  (bs.filter (· ≠ 0)).Nodup ∧ ∀ b ∈ bs, b ≠ 0 → ¬ reserved b ∧ ¬ owned b

theorem Consistent.fresh {owned : ℕ → Prop} {s : Fs} (h : Consistent sbi reserved owned s) (n : ℕ) :
    Fresh reserved owned (allocBlocks sbi n s) := by
  induction n generalizing owned s with
  | zero => simp [Fresh, allocBlocks]
  | succ n ih =>
    rcases allocBlock_cases h with heq | ⟨b, s', heq, ha⟩
    · simpa [Fresh, allocBlocks, heq] using ih h
    · obtain ⟨hnodup, hall⟩ := ih ha.consistent
      rw [allocBlocks, heq]
      constructor
      · rw [filter_cons_of_pos (by simpa using ha.ne_zero), nodup_cons]
        exact ⟨fun hb => (hall b (mem_filter.mp hb).1 ha.ne_zero).2 (Or.inr rfl), hnodup⟩
      · rintro c (_ | ⟨_, hc⟩) hne
        · exact ⟨ha.not_reserved, ha.not_owned⟩
        · exact ⟨(hall c hc hne).1, fun hown => (hall c hc hne).2 (Or.inl hown)⟩

/-- Over every sequence of writes the files own their blocks alone, and what is allocated then
belongs to none of them. -/
theorem written_blocks_apart (sbi : SbInfo) (reserved : ℕ → Prop) (fs : Fs)
    (hfs : Consistent sbi reserved (fun _ => False) fs) (calls : List (WriteCall ι))
    (hcalls : ∀ c ∈ calls, c.InReach sbi) (n : ℕ) :
    let st := (runWrites sbi calls fs).1
    Layout sbi reserved st.raws st.fs ∧
      Fresh reserved (Owned sbi st.raws st.fs.disk) (allocBlocks sbi n st.fs) := by
  have h : Has sbi reserved (runWrites sbi calls fs).1 (runWrites sbi calls fs).2 :=
    Has.run calls _ hcalls (has_created hfs)
  exact ⟨h.layout, h.layout.consistent.fresh n⟩

theorem written_blocks_apart_small :
    let fs : Fs := ⟨List.replicate superblockSize 0, smallDisk⟩
    let st := (runWrites smallFs [(⟨true, 0, [1]⟩ : WriteCall Bool)] fs).1
    Layout smallFs (· < 5) st.raws st.fs ∧
      Fresh (· < 5) (Owned smallFs st.raws st.fs.disk) (allocBlocks smallFs 2 st.fs) ∧
      allocBlocks smallFs 2 st.fs = [7, 8] := by
  have h := written_blocks_apart _ _ _ (smallDisk_consistent.mono fun _ => False.elim)
    [(⟨true, 0, [1]⟩ : WriteCall Bool)] (by simp [WriteCall.InReach]; decide) 2
  exact ⟨h.1, h.2, by decide +kernel⟩

end NoobKernel.Ext4
