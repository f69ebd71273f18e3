import NoobKernel.Model.Exec
import NoobKernel.Verification.Life.Heap

/-! # Strings from user memory

The strings that `sys_execve` copies into the kernel heap are short, and they are all that is
left of the copy; a copy that fails leaves nothing. -/

namespace NoobKernel.Exec

open Library Life Outcome List

variable {m : Vm.Memory} {pt va max array uarray : ℕ} {u0 : ℕ → Bool} {l : List ℕ} {h : Objects}
  {strs : List (ℕ × List ℕ)}

theorem takeWhile_length_lt {read : List ℕ} (hmem : 0 ∈ read) :
    (read.takeWhile (· ≠ 0)).length < read.length := by
  induction read with
  | nil => cases hmem
  | cons b read ih =>
    by_cases hb : b = 0
    · simp [hb]
    · have htail : 0 ∈ read := (mem_cons.mp hmem).resolve_left (Ne.symm hb)
      simpa [hb] using ih htail

theorem copyinstrLoop_length (fuel : ℕ) : ∀ va max str,
    Vm.copyinstrLoop pt m fuel va max = some str → str.length < max := by
  induction fuel with
  | zero =>
    intro va max str hstr
    cases hstr
  | succ fuel ih =>
    intro va max str hstr
    unfold Vm.copyinstrLoop at hstr
    split at hstr
    · cases hstr
    split at hstr
    · cases hstr
    dsimp only at hstr
    split at hstr
    · cases hstr
    set n := min (pageSize - (va &&& (pageSize - 1))) max
    set read := Vm.load (Vm.walkaddr pt va m + (va &&& (pageSize - 1))) n m with hread
    have hlen : read.length = n := by simp [hread, Vm.load]
    split at hstr
    next hzero =>
      obtain rfl := Option.some.inj hstr
      have hlt := takeWhile_length_lt hzero
      omega
    · obtain ⟨rest, hrest, rfl⟩ := Option.map_eq_some_iff.mp hstr
      have hlt := ih _ _ _ hrest
      rw [length_append]
      omega

theorem copyinstr_length {str : List ℕ} (hstr : Vm.copyinstr pt va max m = some str) :
    str.length < max :=
  copyinstrLoop_length max va max str hstr

theorem countStrs_length (is : List ℕ) : ∀ ptrs, countStrs pt uarray m is = some ptrs →
    ptrs.length ≤ is.length := by
  induction is with
  | nil =>
    intro ptrs hptrs
    obtain rfl := Option.some.inj hptrs
    exact le_rfl
  | cons i is ih =>
    intro ptrs hptrs
    unfold countStrs at hptrs
    dsimp only at hptrs
    split at hptrs
    · cases hptrs
    split at hptrs
    · obtain rfl := Option.some.inj hptrs
      exact Nat.zero_le _
    · obtain ⟨rest, hrest, rfl⟩ := Option.map_eq_some_iff.mp hptrs
      exact Nat.succ_le_succ (ih rest hrest)

/-! ## The heap -/

def objectsOf (saved : Option Saved) : List ℕ :=
  saved.elim [] fun a => a.array :: a.strs.map Prod.fst

/-- Strings that fit a buffer of 256 bytes. -/
def Short (strs : List (List ℕ)) : Prop := ∀ str ∈ strs, str.length < 256

theorem kmalloc_pos {n : ℕ} (hn : n ≠ 0) (h : Objects) : kmalloc n h = alloc h := if_neg hn

theorem kmalloc_stock (hs : Stock u0 l h.used) (n : ℕ) :
    (∃ h', kmalloc n h = (none, h') ∧ Stock u0 l h'.used) ∨
      ∃ a h', kmalloc n h = (some a, h') ∧ Stock u0 (a :: l) h'.used := by
  rcases eq_or_ne n 0 with rfl | hn
  · exact Or.inl ⟨h, rfl, hs⟩
  rw [kmalloc_pos hn]
  rcases alloc_stock hs with ⟨h', hnone, hs', -⟩ | ⟨a, h', hsome, hs', -⟩
  · exact Or.inl ⟨h', hnone, hs'⟩
  · exact Or.inr ⟨a, h', hsome, hs'⟩

theorem freeStrs_spec (hs : Stock u0 (strs.map Prod.fst ++ l) h.used) :
    ∃ h', freeStrs strs h = .ok h' ∧ Stock u0 l h'.used := by
  induction strs generalizing h with
  | nil => exact ⟨h, rfl, hs⟩
  | cons str strs ih =>
    obtain ⟨h1, hrun1, hs1⟩ := kfree_stock hs mem_cons_self
    rw [map_cons, cons_append, erase_cons_head] at hs1
    obtain ⟨h2, hrun2, hs2⟩ := ih hs1
    refine ⟨h2, ?_, hs2⟩
    rw [freeStrs, hrun1, ok_bind, hrun2]

/-- What a copy of strings leaves in the heap. -/
def Copies (u0 : ℕ → Bool) (l : List ℕ) (max : ℕ)
    (x : Outcome (Except Err (Option Saved) × Objects)) : Prop :=
  (∃ e h, x = .ok (.error e, h) ∧ Stock u0 l h.used) ∨
    ∃ saved h, x = .ok (.ok saved, h) ∧ Stock u0 (objectsOf saved ++ l) h.used ∧
      (strings saved).length ≤ max ∧ Short (strings saved)

theorem copyStrs_spec (ptrs : List ℕ) : ∀ strs h,
    Stock u0 (strs.map Prod.fst ++ array :: l) h.used → Short (strs.map Prod.snd) →
    strs.length + ptrs.length ≤ max → Copies u0 l max (copyStrs pt m array ptrs strs h) := by
  induction ptrs with
  | nil =>
    intro strs h hs hshort hlen
    refine Or.inr ⟨some ⟨array, strs⟩, h, rfl, hs.perm ?_, ?_, hshort⟩
    · exact perm_middle
    · simpa [strings] using hlen
  | cons ptr ptrs ih =>
    intro strs h hs hshort hlen
    set str := (Vm.copyinstr pt ptr 256 m).getD [] with hstr
    have hlt : str.length < 256 := by
      cases hread : Vm.copyinstr pt ptr 256 m with
      | none =>
        rw [hstr, hread]
        exact Nat.succ_pos _
      | some read =>
        rw [hstr, hread]
        exact copyinstr_length hread
    rw [copyStrs, ← hstr]
    rcases kmalloc_stock hs (str.length + 1) with ⟨h', hnone, hs'⟩ | ⟨a, h', hsome, hs'⟩
    · rw [hnone]
      obtain ⟨h1, hrun1, hs1⟩ := freeStrs_spec hs'
      obtain ⟨h2, hrun2, hs2⟩ := kfree_stock hs1 mem_cons_self
      rw [erase_cons_head] at hs2
      dsimp only
      rw [hrun1, ok_bind, hrun2, ok_bind]
      exact Or.inl ⟨_, h2, rfl, hs2⟩
    · rw [hsome]
      refine ih _ _ (hs'.perm ?_) ?_ ?_
      · rw [map_append, append_assoc]
        exact perm_middle.symm
      · intro s hmem
        rw [map_append, mem_append] at hmem
        rcases hmem with hmem | hmem
        · exact hshort s hmem
        · obtain rfl := mem_singleton.mp hmem
          exact hlt
      · rw [length_append, length_singleton]
        rw [length_cons] at hlen
        omega

theorem copyinStrArray_spec (hs : Stock u0 l h.used) (pt uarray max : ℕ) (m : Vm.Memory) :
    Copies u0 l max (copyinStrArray pt uarray max m h) := by
  have hempty : Copies u0 l max (.ok (.ok none, h)) :=
    Or.inr ⟨none, h, rfl, hs, Nat.zero_le _, fun str hstr => by cases hstr⟩
  unfold copyinStrArray
  split
  · exact hempty
  split
  · exact Or.inl ⟨_, h, rfl, hs⟩
  · exact hempty
  next ptr ptrs hcount =>
    have hlen := countStrs_length _ _ hcount
    rcases kmalloc_stock hs ((ptrs.length + 1) * 8) with ⟨h', hnone, hs'⟩ | ⟨array, h', hsome, hs'⟩
    · rw [hnone]
      exact Or.inl ⟨_, _, rfl, hs'⟩
    · rw [hsome]
      exact copyStrs_spec _ [] _ hs' (fun str hstr => by cases hstr) (by simpa using hlen)

/-! ## Opening files

Path lookups change references only, and a file that `vfs_open_cwd` has opened is gone from the
heap after `file_put`. -/

open Function

variable {s s' s'' : State} {f : OpenFile} {p : Proc} {path script : List ℕ} {base : Option ℕ}
  {files : Files.Heap}

/-- Only references and the answers of the file system have changed. -/
structure Calm (s s' : State) : Prop where
  mem : s'.mem = s.mem
  obj : s'.obj = s.obj
  files : s'.files = s.files

namespace Calm

theorem refl (s : State) : Calm s s := ⟨rfl, rfl, rfl⟩

theorem trans (h : Calm s s') (h' : Calm s' s'') : Calm s s'' :=
  ⟨h'.mem.trans h.mem, h'.obj.trans h.obj, h'.files.trans h.files⟩

end Calm

theorem calm_get (d : ℕ) (s : State) : Calm s (dentryGet d s) := ⟨rfl, rfl, rfl⟩

theorem calm_put (d : ℕ) (s : State) : Calm s (dentryPut d s) := ⟨rfl, rfl, rfl⟩

/-! ## Lookups -/

theorem followMount_calm (d : ℕ) (s : State) : Calm s (followMount d s).2 := by
  unfold followMount
  split
  · exact (calm_put _ _).trans (calm_get _ _)
  · exact Calm.refl s

theorem lookupSingle_calm (d : ℕ) (s : State) : Calm s (lookupSingle d s).2 := by
  unfold lookupSingle
  split
  · exact Calm.refl s
  split
  · exact Calm.refl s
  · exact ⟨rfl, rfl, rfl⟩
  · exact ⟨rfl, rfl, rfl⟩

theorem walkName_calm (name : List ℕ) (d : ℕ) (s : State) : Calm s (walkName name d s).2 := by
  have hlookup := lookupSingle_calm d s
  unfold walkName
  split
  · exact Calm.refl s
  split
  · exact Calm.refl s
  split
  next heq =>
    rw [heq] at hlookup
    exact hlookup
  next heq =>
    rw [heq] at hlookup
    exact (hlookup.trans (followMount_calm _ _)).trans (calm_put _ _)

theorem walkLoop_calm (fuel : ℕ) : ∀ path d s, Calm s (walkLoop fuel path d s).2 := by
  induction fuel with
  | zero => exact fun _ _ s => Calm.refl s
  | succ fuel ih =>
    intro path d s
    have hname := walkName_calm (getName path) d s
    unfold walkLoop
    split
    next heq =>
      rw [heq] at hname
      exact hname
    next heq =>
      rw [heq] at hname
      dsimp only
      split
      · exact hname
      split
      · exact hname.trans (calm_put _ _)
      · exact hname.trans (ih _ _ _)

theorem pathLookup_calm (base : Option ℕ) (path : List ℕ) (s : State) :
    Calm s (pathLookup base path s).2 := by
  unfold pathLookup
  split
  · exact Calm.refl s
  next d _ =>
    have hwalk : Calm (dentryGet d s) (pathWalk d path (dentryGet d s)).2 := by
      unfold pathWalk
      dsimp only
      split
      · exact Calm.refl _
      · exact walkLoop_calm _ _ _ _
    split
    next heq =>
      rw [heq] at hwalk
      exact ((calm_get _ _).trans hwalk).trans (calm_put _ _)
    next heq =>
      rw [heq] at hwalk
      exact (calm_get _ _).trans hwalk

/-! ## Files -/

/-- The file `f` is open for this call alone: without it the files are `files`. -/
structure IsOpen (files : Files.Heap) (f : OpenFile) (s : State) : Prop where
  fresh : files.file f.file = none
  files : s.files = Files.setFile f.file (some ⟨1, .other⟩) files

/-- The result of an attempt to open a file. -/
def Opens (s : State) (x : Except Err OpenFile × State) : Prop :=
  (∃ e s', x = (.error e, s') ∧ Calm s s') ∨
    ∃ f s', x = (.ok f, s') ∧ s'.mem = s.mem ∧ s'.obj = s.obj ∧ IsOpen s.files f s'

theorem Opens.of_calm {x : Except Err OpenFile × State} (h : Calm s s') (hx : Opens s' x) :
    Opens s x := by
  rcases hx with ⟨e, s'', rfl, hcalm⟩ | ⟨f, s'', rfl, hmem, hobj, hopen⟩
  · exact Or.inl ⟨e, s'', rfl, h.trans hcalm⟩
  · exact Or.inr ⟨f, s'', rfl, hmem.trans h.mem, hobj.trans h.obj, h.files ▸ hopen⟩

theorem vfsOpenCwd_spec (path : List ℕ) (base : Option ℕ) (s : State) :
    Opens s (vfsOpenCwd path base s) := by
  have hlookup := pathLookup_calm base path s
  unfold vfsOpenCwd
  split
  next heq =>
    rw [heq] at hlookup
    exact Or.inl ⟨_, _, rfl, hlookup⟩
  next d s1 heq =>
    rw [heq] at hlookup
    refine Opens.of_calm hlookup ?_
    unfold fileOpen
    cases hopens : s1.opens with
    | nil => exact Or.inl ⟨_, _, rfl, calm_put d s1⟩
    | cons answer opens =>
      rcases answer with e | ⟨file, reads⟩
      · exact Or.inl ⟨_, _, rfl, ⟨rfl, rfl, rfl⟩⟩
      by_cases hfresh : s1.files.file file = none
      · simp only [if_pos hfresh]
        exact Or.inr ⟨_, _, rfl, rfl, rfl, hfresh, rfl⟩
      · simp only [if_neg hfresh]
        exact Or.inl ⟨_, _, rfl, ⟨rfl, rfl, rfl⟩⟩

theorem vfsOpenCwd_retry {c : Prop} [Decidable c] (path fallback : List ℕ) (base : Option ℕ)
    (s : State) : Opens s (match vfsOpenCwd path base s with
      | (.ok f, s) => (.ok f, s)
      | (.error e, s) => if c then vfsOpenCwd fallback none s else (.error e, s)) := by
  rcases vfsOpenCwd_spec path base s with ⟨e, s', heq, hcalm⟩ | ⟨f, s', heq, hopen⟩
  · rw [heq]
    dsimp only
    split
    · exact Opens.of_calm hcalm (vfsOpenCwd_spec _ _ _)
    · exact Or.inl ⟨e, s', rfl, hcalm⟩
  · rw [heq]
    exact Or.inr ⟨f, s', rfl, hopen⟩

theorem IsOpen.filePut (h : IsOpen files f s) :
    filePut f s = .ok (dentryPut f.dentry { s with files }) := by
  have hset : Files.setFile f.file none s.files = files := by
    rw [h.files, Files.setFile, Files.setFile]
    simp only [update_idem]
    rw [← h.fresh, update_eq_self]
  have hput : Files.filePut f.file s.files = .ok files := by
    have hfile : s.files.file f.file = some ⟨1, .other⟩ := by
      rw [h.files]
      exact update_self ..
    rw [Files.filePut, hfile]
    simp only [if_true, Files.release, ok_bind, Files.fileFree, hfile, hset]
  rw [Exec.filePut, hput, ok_bind]

theorem IsOpen.congr (h : IsOpen files f s) (s' : State) {f' : OpenFile} (hf : f'.file = f.file)
    (hs : s'.files = s.files) : IsOpen files f' s' := by
  refine ⟨?_, ?_⟩
  · rw [hf]
    exact h.fresh
  · rw [hs, hf]
    exact h.files

/-! ## Reads -/

@[simp] theorem fileLseek_file (pos : ℕ) (f : OpenFile) : (fileLseek pos f).file = f.file := by
  unfold fileLseek
  split <;> rfl

@[simp] theorem fileRead_file (n : ℕ) (f : OpenFile) : (fileRead n f).2.file = f.file := by
  unfold fileRead
  split
  · rfl
  · split <;> rfl

theorem nextPhdr_same (f : OpenFile) : (nextPhdr f).2.file = f.file := by
  have hread := fileRead_file phdrSize f
  unfold nextPhdr
  split
  next heq =>
    rw [heq] at hread
    exact hread
  next heq =>
    rw [heq] at hread
    split <;> exact hread

theorem readPhdr_same (ehdr : Ehdr) (i : ℕ) (f : OpenFile) : (readPhdr ehdr i f).2.file = f.file :=
  (nextPhdr_same _).trans (fileLseek_file _ _)

theorem scanInterp_same (ehdr : Ehdr) (is : List ℕ) :
    ∀ f, (scanInterp ehdr is f).2.file = f.file := by
  induction is with
  | nil => exact fun _ => rfl
  | cons i is ih =>
    intro f
    have hphdr := readPhdr_same ehdr i f
    unfold scanInterp
    split
    next heq =>
      rw [heq] at hphdr
      exact (ih _).trans hphdr
    next phdr f1 heq =>
      rw [heq] at hphdr
      have hread := (fileRead_file phdr.filesz (fileLseek phdr.offset f1)).trans (fileLseek_file _ _)
      split
      · split
        next heq' =>
          rw [heq'] at hread
          exact hread.trans hphdr
        next heq' =>
          rw [heq'] at hread
          exact ((ih _).trans hread).trans hphdr
      · exact (ih _).trans hphdr

theorem readSegment_same (pt fuel : ℕ) : ∀ remaining dst f m,
    (readSegment pt fuel remaining dst f m).2.1.file = f.file := by
  induction fuel with
  | zero => exact fun _ _ _ _ => rfl
  | succ fuel ih =>
    intro remaining dst f m
    have hread := fileRead_file (min remaining 512) f
    unfold readSegment
    split
    · exact rfl
    split
    next heq =>
      rw [heq] at hread
      dsimp only
      split
      · exact hread
      · exact (ih _ _ _ _).trans hread
    next heq =>
      rw [heq] at hread
      exact hread

theorem loadSegment_same (pt base : ℕ) (phdr : Phdr) (f : OpenFile) (m : Vm.Memory) :
    (loadSegment pt base phdr f m).2.1.file = f.file := by
  have hseek : (fileLseek phdr.offset f).file = f.file := fileLseek_file _ _
  unfold loadSegment
  dsimp only
  split
  · exact rfl
  split
  · exact rfl
  split
  · exact rfl
  split <;> exact (readSegment_same _ _ _ _ _ _).trans hseek

theorem loadSegments_same (pt base : ℕ) (ehdr : Ehdr) (is : List ℕ) : ∀ maxVa f m,
    (loadSegments pt base ehdr is maxVa f m).2.1.file = f.file := by
  induction is with
  | nil => exact fun _ _ _ => rfl
  | cons i is ih =>
    intro maxVa f m
    have hphdr := readPhdr_same ehdr i f
    unfold loadSegments
    split
    next heq =>
      rw [heq] at hphdr
      exact (ih _ _ _).trans hphdr
    next phdr f1 heq =>
      rw [heq] at hphdr
      have hseg := loadSegment_same pt base phdr f1 m
      split
      · exact (ih _ _ _).trans hphdr
      split
      next heq' =>
        rw [heq'] at hseg
        exact hseg.trans hphdr
      next heq' =>
        rw [heq'] at hseg
        exact ((ih _ _ _).trans hseg).trans hphdr

theorem loadElf_same (pt base : ℕ) (ehdr : Ehdr) (f : OpenFile) (m : Vm.Memory) :
    (loadElf pt base ehdr f m).2.1.file = f.file := by
  have hsegs := loadSegments_same pt base ehdr (List.range ehdr.phnum) 0 f m
  unfold loadElf
  split
  next heq =>
    rw [heq] at hsegs
    exact hsegs
  next heq =>
    rw [heq] at hsegs
    split <;> exact hsegs

theorem findPhdrs_same (ehdr : Ehdr) (base n : ℕ) :
    ∀ f, (findPhdrs ehdr base n f).2.file = f.file := by
  induction n with
  | zero => exact fun _ => rfl
  | succ n ih =>
    intro f
    have hphdr := nextPhdr_same f
    unfold findPhdrs
    split
    next heq =>
      rw [heq] at hphdr
      exact (ih _).trans hphdr
    next heq =>
      rw [heq] at hphdr
      split
      · exact hphdr
      · exact (ih _).trans hphdr

theorem findPtPhdr_same (ehdr : Ehdr) (base : ℕ) (is : List ℕ) : ∀ f,
    (findPtPhdr ehdr base is f).2.file = f.file := by
  induction is with
  | nil => exact fun _ => rfl
  | cons i is ih =>
    intro f
    have hphdr := readPhdr_same ehdr i f
    unfold findPtPhdr
    split
    next heq =>
      rw [heq] at hphdr
      exact hphdr
    next heq =>
      rw [heq] at hphdr
      split
      · exact hphdr
      · exact (ih _).trans hphdr

theorem phdrAddr_same (ehdr : Ehdr) (base : ℕ) (f : OpenFile) :
    (phdrAddr ehdr base f).2.file = f.file :=
  ((findPtPhdr_same _ _ _ _).trans (findPhdrs_same _ _ _ _)).trans (fileLseek_file _ _)

end NoobKernel.Exec
