import NoobKernel.Model.Pipe2
import NoobKernel.Verification.Files.Table

/-! # A pipe that cannot be made

When both files of the pipe can be allocated, `sys_pipe2` gives back whatever it has taken before
it fails. The pointer of a failed `file_alloc` is not `NULL`, and it is followed. -/

namespace NoobKernel.Files.Pipe2

open Function Library Outcome

variable {env : Supply} {fdt fdt' : FdTable} {h : Heap} {rf wf p fd : ℕ}

/-- Both files can be allocated. -/
def Allocates (env : Supply) (h : Heap) : Prop :=
  ∃ rf wf, env.rf = some rf ∧ env.wf = some wf ∧ rf ≠ wf ∧ h.file rf = none ∧ h.file wf = none

/-- One of the descriptors cannot be had. -/
def Full (env : Supply) (fdt : FdTable) : Prop :=
  ∃ rfd fdt', fdAlloc env.rfdRoom fdt = .ok (rfd, fdt') ∧
    (rfd < 0 ∨ ∃ wfd fdt'', fdAlloc env.wfdRoom fdt' = .ok (wfd, fdt'') ∧ wfd < 0)

/-- An allocation, a descriptor or the copy to user memory fails. -/
def Fails (env : Supply) (fdt : FdTable) (h : Heap) : Prop :=
  ¬ Allocates env h ∨ fresh h.pipe env.pipe = none ∨ Full env fdt ∨ env.copied = false

/-- The table has at most grown. -/
structure Same (fdt fdt' : FdTable) : Prop where
  max_le : fdt.maxFds ≤ fdt'.maxFds
  view : fdt'.view = fdt.view
  openFds : fdt'.openFds = fdt.openFds

/-- The call returns a negative number, and nothing but the size of the table has changed. -/
def Undone (fdt : FdTable) (h : Heap) (x : Outcome (ℤ × FdTable × Heap)) : Prop :=
  ∃ r fdt', x = .ok (r, fdt', h) ∧ r < 0 ∧ Same fdt fdt'

/-! ## The heap -/

theorem update_again {α : Type*} (g : ℕ → α) (i j : ℕ) (x y x' y' : α) :
    update (update (update (update g i x) j y) i x') j y' = update (update g i x') j y' := by
  funext k
  by_cases hj : k = j
  · simp [hj]
  by_cases hi : k = i
  · subst hi
    simp [hj]
  · simp [hi, hj]

theorem update_same {α : Type*} {g : ℕ → α} {i : ℕ} {x : α} (hg : g i = x) :
    update g i x = g := by
  rw [← hg, update_eq_self]

/-- The heap with both files and the pipe. -/
def opened (rf wf p : ℕ) (h : Heap) : Heap :=
  setFile wf (some ⟨1, .writeEnd p⟩) (setFile rf (some ⟨1, .readEnd p⟩) (setPipe p (some ⟨1, 1⟩) h))

theorem filePut_opened (hne : rf ≠ wf) (hrf : h.file rf = none) (hwf : h.file wf = none)
    (hp : h.pipe p = none) :
    ∃ h', filePut rf (opened rf wf p h) = .ok h' ∧ filePut wf h' = .ok h := by
  have hread : filePut rf (opened rf wf p h) =
      .ok (setFile rf none (setPipe p (some ⟨0, 1⟩) (opened rf wf p h))) := by
    simp [filePut, opened, setFile, setPipe, hne, release, storeEnds, Files.fileFree]
  refine ⟨_, hread, ?_⟩
  simp [filePut, opened, setFile, setPipe, Ne.symm hne, release, storeEnds, Files.fileFree,
    update_again, update_same, hrf, hwf, hp]

/-! ## The table -/

theorem Same.of_view (hfdt : fdt.Wf) (hfdt' : fdt'.Wf) (hmax : fdt.maxFds ≤ fdt'.maxFds)
    (hview : fdt'.view = fdt.view) (hfiles : fdt'.files = fdt.files) : Same fdt fdt' :=
  ⟨hmax, hview, by rw [hfdt.count, hfdt'.count, hfiles]⟩

theorem fdFree_reserves (hfdt : fdt.Wf) (hres : Reserves fdt fd fdt') :
    ∃ fdt'', (∀ h, fdFree fd fdt' h = .ok (fdt'', h)) ∧ Same fdt fdt'' := by
  obtain ⟨fdt'', hcl, hrun⟩ := fdFree_slot hres.wf hres.slot
  refine ⟨fdt'', hrun, .of_view hfdt hcl.wf (hres.max_le.trans hcl.max_le) ?_ ?_⟩
  · rw [hcl.view, hres.view, update_idem, update_same hres.free]
  · rw [← hres.files, hcl.files, Slot.files_reserved, zero_add]

theorem closes_both {t₁ t₂ : FdTable} {r w : ℕ} (hfdt : fdt.Wf) (hr : Reserves fdt r t₁)
    (hw : Reserves t₁ w t₂) :
    ∃ t₃ t₄, fdInstall r rf t₂ = .ok (0, t₃) ∧ fdInstall w wf t₃ = .ok (0, t₄) ∧
      ∃ t₅ t₆, (∀ h, fdFree r t₄ h = filePut rf h >>= fun h => .ok (t₅, h)) ∧
        (∀ h, fdFree w t₅ h = filePut wf h >>= fun h => .ok (t₆, h)) ∧ Same fdt t₆ := by
  have hne := hr.ne hw
  obtain ⟨t₃, hrun₃, hi₃⟩ := fdInstall_spec hw.wf (hw.others hr.wf hr.slot hne) (by nofun) rf
  obtain ⟨t₄, hrun₄, hi₄⟩ := fdInstall_spec hi₃.wf (hi₃.others hw.wf hw.slot hne.symm) (by nofun) wf
  obtain ⟨t₅, hc₅, hrun₅⟩ := fdFree_slot hi₄.wf (hi₄.others hi₃.wf hi₃.slot hne)
  obtain ⟨t₆, hc₆, hrun₆⟩ := fdFree_slot hc₅.wf (hc₅.others hi₄.wf hi₄.slot hne.symm)
  refine ⟨t₃, t₄, hrun₃, hrun₄, t₅, t₆, hrun₅, hrun₆, .of_view hfdt hc₆.wf ?_ ?_ ?_⟩
  · exact hr.max_le.trans <| hw.max_le.trans <| hi₃.max_le.trans <|
      hi₄.max_le.trans <| hc₅.max_le.trans hc₆.max_le
  · have hwnull := hw.free
    rw [hr.view, update_of_ne hne.symm] at hwnull
    rw [hc₆.view, hc₅.view, hi₄.view, hi₃.view, hw.view, hr.view]
    rw [update_again, update_again, update_same hr.free, update_same hwnull]
  · have hfiles := hc₅.files
    rw [hc₆.files, hi₄.files, hi₃.files, hw.files, hr.files] at hfiles
    simpa [Multiset.cons_swap wf] using hfiles.symm

theorem installEnds_undone (hfdt : fdt.Wf) {h₀ : Heap}
    (hput : ∃ h', filePut rf h₀ = .ok h' ∧ filePut wf h' = .ok h)
    (hfail : Full env fdt ∨ env.copied = false) : Undone fdt h (installEnds env rf wf fdt h₀) := by
  obtain ⟨h', hput, hput'⟩ := hput
  unfold installEnds
  rcases fdAlloc_spec hfdt env.rfdRoom with hfull | ⟨r, t, hr, hres⟩
  · rw [hfull, ok_bind]
    rcases fdAlloc_spec hfdt env.wfdRoom with hfull' | ⟨w, t, hw, hres⟩
    · refine ⟨-emfile, fdt, ?_, by decide, le_rfl, rfl, rfl⟩
      simp [hfull', fdFreeIf, emfile, hput, hput']
    · obtain ⟨t', hrun, hsame⟩ := fdFree_reserves hfdt hres
      refine ⟨-emfile, t', ?_, by decide, hsame⟩
      simp [hw, fdFreeIf, emfile, hrun, hput, hput']
  · rw [hr, ok_bind]
    rcases fdAlloc_spec hres.wf env.wfdRoom with hfull' | ⟨w, t', hw, hres'⟩
    · obtain ⟨t', hrun, hsame⟩ := fdFree_reserves hfdt hres
      refine ⟨-emfile, t', ?_, by decide, hsame⟩
      simp [hfull', fdFreeIf, emfile, hrun, hput, hput']
    obtain ⟨t₃, t₄, h₃, h₄, t₅, t₆, h₅, h₆, hsame⟩ :=
      @closes_both fdt rf wf t t' r w hfdt hres hres'
    have hpos : ∀ n : ℕ, ¬ (n : ℤ) < 0 := by omega
    have hcopied : env.copied = false := by simpa [Full, hr, hw, hpos] using hfail
    refine ⟨-efault, t₆, ?_, by decide, hsame⟩
    simp [hw, h₃, h₄, hcopied, h₅, h₆, hput, hput']

/-! ## The call -/

theorem fresh_eq_some_iff {α : Type*} {used : ℕ → Option α} {answer : Option ℕ} {a : ℕ} :
    fresh used answer = some a ↔ answer = some a ∧ used a = none := by
  simp [fresh, Option.filter_eq_some_iff]

theorem sysPipe2_undone (hfdt : fdt.Wf) (halloc : Allocates env h) (hfail : Fails env fdt h) :
    Undone fdt h (sysPipe2 env fdt h) := by
  have hfail := hfail.resolve_left (not_not.mpr halloc)
  obtain ⟨rf, wf, hrf, hwf, hne, hr, hw⟩ := halloc
  have hw' : (setFile rf (some ⟨1, .other⟩) h).file wf = none := by
    simp [setFile, Ne.symm hne, hw]
  unfold sysPipe2 fileAlloc
  rw [hrf, hwf, fresh_eq_some_iff.mpr ⟨rfl, hr⟩]
  dsimp only
  rw [fresh_eq_some_iff.mpr ⟨rfl, hw'⟩]
  simp only [reduceCtorEq, or_self, if_false]
  rw [pipeCreate]
  cases hp : fresh h.pipe env.pipe with
  | none =>
    refine ⟨-enomem, fdt, ?_, by decide, le_rfl, rfl, rfl⟩
    simp [setFile, hp, enomem, fileFree, Pointer.deref, Files.fileFree, hne, Ne.symm hne,
      update_again, update_same, hr, hw]
  | some p =>
    have hput := filePut_opened hne hr hw (fresh_eq_some_iff.mp hp).2
    have hends := installEnds_undone hfdt hput (hfail.resolve_left (by simp [hp]))
    convert hends using 1
    simp [setFile, hp, setKind, Pointer.deref, setPipe, opened, hne, Ne.symm hne, update_again]

theorem sysPipe2_wild (halloc : ¬ Allocates env h) : sysPipe2 env fdt h = .error .wild := by
  unfold sysPipe2
  cases hrf : fresh h.file env.rf with
  | none =>
    have hrf' : fileAlloc env.rf h = (.error (-enomem), h) := by rw [fileAlloc, hrf]
    simp only [hrf']
    rcases fileAlloc env.wf h with ⟨wf, h'⟩
    cases hp : fresh h'.pipe env.pipe with
    | none => simp [pipeCreate, hp, fileFree, Pointer.deref]
    | some p => simp [pipeCreate, hp, setKind, Pointer.deref, fileFree]
  | some rf =>
    set h' := setFile rf (some ⟨1, .other⟩) h with hh'
    have hrf' : fileAlloc env.rf h = (.file rf, h') := by rw [fileAlloc, hrf]
    obtain ⟨hr, hfree⟩ := fresh_eq_some_iff.mp hrf
    have hwf : fresh h'.file env.wf = none := by
      by_contra hsome
      obtain ⟨wf, hwf⟩ := Option.ne_none_iff_exists'.mp hsome
      obtain ⟨hw, hfree'⟩ := fresh_eq_some_iff.mp hwf
      have hne : rf ≠ wf := by
        rintro rfl
        simp [hh', setFile] at hfree'
      refine halloc ⟨rf, wf, hr, hw, hne, hfree, ?_⟩
      simpa [hh', setFile, hne.symm] using hfree'
    have hwf' : fileAlloc env.wf h' = (.error (-enomem), h') := by rw [fileAlloc, hwf]
    simp only [hrf', hwf']
    have hfile : h'.file rf = some ⟨1, .other⟩ := by simp [hh', setFile]
    cases hp : fresh h'.pipe env.pipe with
    | none => simp [pipeCreate, hp, fileFree, Files.fileFree, Pointer.deref, hfile]
    | some p => simp [pipeCreate, hp, setKind, Pointer.deref, setPipe, hfile]

/-- When `sys_pipe2` fails, it returns an error and the descriptors, files and pipes are as before. -/
def Clean (env : Supply) (fdt : FdTable) (h : Heap) : Prop :=
  Fails env fdt h → Undone fdt h (sysPipe2 env fdt h)

/-- A failure is clean exactly when both files could be allocated. -/
theorem sysPipe2_clean_iff (hfdt : fdt.Wf) : Clean env fdt h ↔ Allocates env h := by
  constructor
  · intro hclean
    by_contra halloc
    obtain ⟨r, fdt', hrun, -⟩ := hclean (Or.inl halloc)
    rw [sysPipe2_wild halloc] at hrun
    cases hrun
  · exact sysPipe2_undone hfdt

def emptyHeap : Heap := ⟨fun _ => none, fun _ => none⟩

/-- Files, a pipe and descriptors for the copy `copied`, unless `wf` is missing. -/
def supply (wf : Option ℕ) (copied : Bool) : Supply := ⟨some 0, wf, some 0, true, true, copied⟩

theorem sysPipe2_clean_copyout : ∃ fdt, fdTableAlloc true = some fdt ∧
    Undone fdt emptyHeap (sysPipe2 (supply (some 1) false) fdt emptyHeap) := by
  refine ⟨_, rfl, (sysPipe2_clean_iff (wf_fdTableAlloc rfl)).mpr ?_ ?_⟩
  · exact ⟨0, 1, rfl, rfl, by decide, rfl, rfl⟩
  · exact Or.inr (Or.inr (Or.inr rfl))

/-- The second file cannot be allocated, and `pipe_create` stores through its pointer. -/
theorem sysPipe2_follows_error : ∃ fdt, fdTableAlloc true = some fdt ∧
    sysPipe2 (supply none true) fdt emptyHeap = .error .wild ∧
    ¬ Clean (supply none true) fdt emptyHeap := by
  have halloc : ¬ Allocates (supply none true) emptyHeap := by
    rintro ⟨rf, wf, -, hwf, -⟩
    cases hwf
  refine ⟨_, rfl, rfl, fun hclean => ?_⟩
  obtain ⟨r, fdt', hrun, -⟩ := hclean (Or.inl halloc)
  cases hrun

end NoobKernel.Files.Pipe2
