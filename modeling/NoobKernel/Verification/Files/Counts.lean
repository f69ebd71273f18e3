import NoobKernel.Model.Files
import NoobKernel.Verification.Files.Table

/-! # Reference counts and pipe ends -/

namespace NoobKernel.Files

open Library Function List Outcome Option

variable {h h' : Heap} {refs : Multiset ℕ} {f k : ℕ} {fdt : FdTable}

/-! ## Ends of pipes -/

inductive End where
  | reader
  | writer
deriving DecidableEq, Repr

def End.kind (k : ℕ) : End → Kind
  | .reader => .readEnd k
  | .writer => .writeEnd k

def Ends.get (ends : Ends) : End → ℕ
  | .reader => ends.nreaders
  | .writer => ends.nwriters

/-- How many files the kernel believes to have for an end; a pipe that was freed has none. -/
def Heap.ends (h : Heap) (k : ℕ) (e : End) : ℕ :=
  match h.pipe k with
  | none => 0
  | some ends => ends.get e

section Setters

variable {g k' : ℕ} {file : Option File} {ends : Option Ends}

@[simp] theorem setFile_self : (setFile f file h).file f = file := update_self ..

theorem setFile_of_ne (hg : g ≠ f) : (setFile f file h).file g = h.file g := update_of_ne hg ..

@[simp] theorem setPipe_self : (setPipe k ends h).pipe k = ends := update_self ..

theorem setPipe_of_ne (hk : k' ≠ k) : (setPipe k ends h).pipe k' = h.pipe k' := update_of_ne hk ..

end Setters

theorem End.kind_inj {e e' : End} {k' : ℕ} (h : e.kind k = e'.kind k') : k = k' ∧ e = e' := by
  cases e with
  | reader =>
    cases e' with
    | reader => exact ⟨Kind.readEnd.inj h, rfl⟩
    | writer => cases h
  | writer =>
    cases e' with
    | reader => cases h
    | writer => exact ⟨Kind.writeEnd.inj h, rfl⟩

theorem Kind.cases_end (kind : Kind) : kind = .other ∨ ∃ (e : End) (k : ℕ), kind = e.kind k := by
  cases kind with
  | other => exact Or.inl rfl
  | readEnd k => exact Or.inr ⟨.reader, k, rfl⟩
  | writeEnd k => exact Or.inr ⟨.writer, k, rfl⟩

theorem ends_storeEnds (ends : Ends) (e : End) : (storeEnds k ends h).ends k e = ends.get e := by
  unfold Heap.ends storeEnds
  rw [setPipe_self]
  by_cases hzero : ends.nreaders = 0 ∧ ends.nwriters = 0
  · rw [if_pos hzero]
    cases e with
    | reader => exact hzero.1.symm
    | writer => exact hzero.2.symm
  · rw [if_neg hzero]

theorem ends_storeEnds_ne {k' : ℕ} (hk : k' ≠ k) (ends : Ends) (e : End) :
    (storeEnds k ends h).ends k' e = h.ends k' e := by
  unfold Heap.ends storeEnds
  rw [setPipe_of_ne hk]

theorem release_spec {kind : Kind} (hone : ∀ (e : End) k, kind = e.kind k → h.ends k e = 1) :
    ∃ h', release kind h = .ok h' ∧ h'.file = h.file ∧
      ∀ (e : End) k, h'.ends k e = if kind = e.kind k then 0 else h.ends k e := by
  rcases kind.cases_end with rfl | ⟨e, k, rfl⟩
  · exact ⟨h, rfl, rfl, fun e k => (if_neg (by cases e <;> nofun)).symm⟩
  have hone := hone e k rfl
  unfold Heap.ends at hone
  split at hone
  · cases hone
  next ends hk =>
    obtain ⟨ends', hrun, hget⟩ : ∃ ends', release (e.kind k) h = .ok (storeEnds k ends' h) ∧
        ∀ e', ends'.get e' = if e' = e then 0 else ends.get e' := by
      obtain ⟨nreaders, nwriters⟩ := ends
      cases e with
      | reader =>
        obtain rfl : nreaders = 1 := hone
        exact ⟨⟨0, nwriters⟩, by rw [End.kind, release, hk]; rfl, fun e' => by cases e' <;> rfl⟩
      | writer =>
        obtain rfl : nwriters = 1 := hone
        exact ⟨⟨nreaders, 0⟩, by rw [End.kind, release, hk]; rfl, fun e' => by cases e' <;> rfl⟩
    refine ⟨storeEnds k ends' h, hrun, rfl, fun e' k' => ?_⟩
    by_cases hkk : k' = k
    · subst hkk
      rw [ends_storeEnds, hget, Heap.ends, hk]
      by_cases he : e' = e
      · rw [if_pos he, he, if_pos rfl]
      · rw [if_neg he, if_neg fun heq => he (End.kind_inj heq).2.symm]
    · rw [ends_storeEnds_ne hkk, if_neg fun heq => hkk (End.kind_inj heq).1.symm]

/-- Each end that is not released belongs to exactly one file. -/
structure Heap.PipesOk (h : Heap) : Prop where
  file : ∀ f file (e : End) k, h.file f = some file → file.kind = e.kind k → h.ends k e = 1
  unique : ∀ f g file file' (e : End) k, h.file f = some file → h.file g = some file' →
    file.kind = e.kind k → file'.kind = e.kind k → f = g
  has : ∀ (e : End) k, h.ends k e ≠ 0 → ∃ f file, h.file f = some file ∧ file.kind = e.kind k

theorem Heap.PipesOk.of_kinds (hok : h.PipesOk) (hends : h'.ends = h.ends)
    (hfile : ∀ f, (h'.file f).map File.kind = (h.file f).map File.kind) : h'.PipesOk := by
  have hback : ∀ f file', h'.file f = some file' →
      ∃ file, h.file f = some file ∧ file'.kind = file.kind := by
    intro f file' hf
    have hk := hfile f
    rw [hf] at hk
    obtain ⟨file, hf', hkind⟩ := map_eq_some_iff.mp hk.symm
    exact ⟨file, hf', hkind.symm⟩
  refine ⟨?_, ?_, ?_⟩
  · intro f file' e k hf hkind
    obtain ⟨file, hf', hsame⟩ := hback f file' hf
    rw [hends]
    exact hok.file f file e k hf' (hsame ▸ hkind)
  · intro f g file file' e k hf hg hkf hkg
    obtain ⟨file1, hf', hsame⟩ := hback f file hf
    obtain ⟨file2, hg', hsame'⟩ := hback g file' hg
    exact hok.unique f g file1 file2 e k hf' hg' (hsame ▸ hkf) (hsame' ▸ hkg)
  · intro e k hne
    rw [hends] at hne
    obtain ⟨f, file, hf, hkind⟩ := hok.has e k hne
    have hk' := hfile f
    rw [hf] at hk'
    obtain ⟨file', hf', hsame⟩ := map_eq_some_iff.mp hk'
    exact ⟨f, file', hf', hsame.trans hkind⟩

theorem update_none {g : ℕ} {file : File} :
    update h.file f none g = some file ↔ g ≠ f ∧ h.file g = some file := by
  by_cases hg : g = f
  · subst hg
    rw [update_self]
    exact ⟨nofun, fun hne => absurd rfl hne.1⟩
  · rw [update_of_ne hg]
    exact ⟨fun hf => ⟨hg, hf⟩, fun hf => hf.2⟩

theorem Heap.PipesOk.close (hok : h.PipesOk) {file : File} (hf : h.file f = some file) :
    ∃ h', (release file.kind h >>= fileFree f) = .ok h' ∧ h'.PipesOk ∧
      h'.file = update h.file f none := by
  obtain ⟨h1, hrelease, hfile, hends⟩ := release_spec fun e k hkind => hok.file f file e k hf hkind
  have hset : (setFile f none h1).file = update h.file f none := by rw [← hfile]; rfl
  refine ⟨setFile f none h1, ?_, ⟨?_, ?_, ?_⟩, hset⟩
  · rw [hrelease, ok_bind, fileFree, hfile, hf]
  · intro g file' e k hg hkind'
    rw [hset] at hg
    obtain ⟨hgf, hg⟩ := update_none.mp hg
    refine (hends e k).trans ((if_neg fun hkind => hgf ?_).trans (hok.file g file' e k hg hkind'))
    exact hok.unique g f file' file e k hg hf hkind' hkind
  · intro g g' file1 file2 e k hg hg'
    rw [hset] at hg hg'
    exact hok.unique g g' file1 file2 e k (update_none.mp hg).2 (update_none.mp hg').2
  · intro e k hne
    have hkind : file.kind ≠ e.kind k := fun hkind => hne ((hends e k).trans (if_pos hkind))
    obtain ⟨g, file', hg, hkind'⟩ :=
      hok.has e k fun hzero => hne ((hends e k).trans ((if_neg hkind).trans hzero))
    refine ⟨g, file', ?_, hkind'⟩
    rw [hset]
    refine update_none.mpr ⟨?_, hg⟩
    rintro rfl
    exact hkind (mem_unique hg hf ▸ hkind')

/-! ## Counts -/

/-- The counts of the files are the numbers of references to them. -/
structure Heap.Refs (h : Heap) (refs : Multiset ℕ) : Prop where
  live : ∀ f file, h.file f = some file → file.refcnt = refs.count f ∧ 0 < refs.count f
  dead : ∀ f, h.file f = none → refs.count f = 0

structure Heap.Counts (h : Heap) (refs : Multiset ℕ) : Prop extends h.Refs refs where
  pipes : h.PipesOk

theorem Heap.Counts.exists_file (hc : h.Counts refs) (hf : f ∈ refs) :
    ∃ file, h.file f = some file := by
  cases hfile : h.file f with
  | none => exact absurd hf (Multiset.count_eq_zero.mp (hc.dead f hfile))
  | some file => exact ⟨file, rfl⟩

theorem Heap.Counts.ne_none (hc : h.Counts refs) (hf : f ∈ refs) : h.file f ≠ none := by
  obtain ⟨file, hfile⟩ := hc.exists_file hf
  rw [hfile]
  exact nofun

theorem Heap.Counts.gets {new : Multiset ℕ} (hc : h.Counts refs) (hnew : new ⊆ refs) :
    (h.gets new).Counts (new + refs) where
  live := by
    intro f file' hf
    obtain ⟨file, hfile, rfl⟩ := map_eq_some_iff.mp hf
    obtain ⟨hcount, hpos⟩ := hc.live f file hfile
    rw [Multiset.count_add]
    exact ⟨by dsimp only; omega, by omega⟩
  dead := by
    intro f hf
    have hzero := hc.dead f (map_eq_none_iff.mp hf)
    have hnot : f ∉ new := fun hmem => Multiset.count_eq_zero.mp hzero (hnew hmem)
    rw [Multiset.count_add, hzero, Multiset.count_eq_zero.mpr hnot]
  pipes := hc.pipes.of_kinds rfl (fun f => by
    rw [Heap.gets, Option.map_map]
    rfl)

theorem Heap.Counts.get (hc : h.Counts refs) (hf : f ∈ refs) :
    fileGet f h = .ok (h.gets {f}) ∧ (h.gets {f}).Counts (f ::ₘ refs) := by
  refine ⟨fileGet_eq (hc.ne_none hf), ?_⟩
  exact hc.gets (Multiset.singleton_subset.mpr hf)

theorem Heap.Counts.put (hc : h.Counts (f ::ₘ refs)) :
    ∃ h', filePut f h = .ok h' ∧ h'.Counts refs := by
  obtain ⟨file, hfile⟩ := hc.exists_file (Multiset.mem_cons_self f refs)
  have hcount := (hc.live f file hfile).1
  rw [Multiset.count_cons_self] at hcount
  have hothers : ∀ g, g ≠ f → (f ::ₘ refs).count g = refs.count g := fun g hg =>
    Multiset.count_cons_of_ne hg refs
  unfold filePut
  rw [hfile]
  dsimp only
  by_cases hlast : file.refcnt = 1
  · obtain ⟨h', hclose, hpipes, hset⟩ := hc.pipes.close hfile
    rw [if_pos hlast]
    refine ⟨h', hclose, ⟨?_, ?_⟩, hpipes⟩
    · intro g file' hg
      rw [hset] at hg
      obtain ⟨hgf, hg⟩ := update_none.mp hg
      rw [← hothers g hgf]
      exact hc.live g file' hg
    · intro g hg
      by_cases hgf : g = f
      · subst hgf
        omega
      · rw [hset, update_of_ne hgf] at hg
        rw [← hothers g hgf]
        exact hc.dead g hg
  · rw [if_neg hlast]
    refine ⟨_, rfl, ⟨?_, ?_⟩, ?_⟩
    · intro g file' hg
      by_cases hgf : g = f
      · subst hgf
        rw [setFile_self] at hg
        obtain rfl := Option.some.inj hg
        exact ⟨by dsimp only; omega, by omega⟩
      · rw [← hothers g hgf]
        exact hc.live g file' ((setFile_of_ne hgf).symm.trans hg)
    · intro g hg
      by_cases hgf : g = f
      · subst hgf
        rw [setFile_self] at hg
        cases hg
      · rw [← hothers g hgf]
        exact hc.dead g ((setFile_of_ne hgf).symm.trans hg)
    · refine hc.pipes.of_kinds rfl (fun g => ?_)
      by_cases hgf : g = f
      · subst hgf
        rw [hfile, setFile_self]
        rfl
      · rw [setFile_of_ne hgf]

theorem Heap.Counts.putSlot {s : Slot} (hc : h.Counts (s.files + refs)) :
    ∃ h', s.put h = .ok h' ∧ h'.Counts refs := by
  cases s with
  | null | reserved => exact ⟨h, rfl, by simpa using hc⟩
  | file f => exact hc.put

theorem putSlots_cons {s : Slot} {i : ℕ} (hs : fdt.fds[i]? = some s) (rest : List ℕ) :
    putSlots fdt (i :: rest) h = s.put h >>= putSlots fdt rest := by
  rw [putSlots, FdTable.slot_eq hs]
  cases s <;> rfl

theorem Heap.Counts.putSlots (n : ℕ) : ∀ (i : ℕ) (h : Heap), i + n ≤ fdt.fds.length →
    h.Counts ((((fdt.fds.drop i).take n).map Slot.files).sum + refs) →
    ∃ h', Files.putSlots fdt (List.range' i n) h = .ok h' ∧ h'.Counts refs := by
  induction n with
  | zero =>
    intro i h _ hc
    rw [take_zero, map_nil, sum_nil, zero_add] at hc
    exact ⟨h, rfl, hc⟩
  | succ n ih =>
    intro i h hlen hc
    have hlt : i < fdt.fds.length := by omega
    rw [drop_eq_getElem_cons hlt, take_succ_cons, map_cons, sum_cons, add_assoc] at hc
    obtain ⟨h1, hput, hc1⟩ := hc.putSlot
    rw [List.range'_succ, putSlots_cons (List.getElem?_eq_getElem hlt), hput, ok_bind]
    exact ih (i + 1) h1 (by omega) hc1

theorem Heap.Counts.fdTableFree (hwf : fdt.Wf) (hc : h.Counts (fdt.files + refs)) :
    ∃ h', Files.fdTableFree fdt h = .ok h' ∧ h'.Counts refs := by
  have hall : (fdt.fds.drop 0).take fdt.maxFds = fdt.fds := by
    rw [drop_zero, take_of_length_le hwf.size.le]
  rw [Files.fdTableFree, range_eq_range']
  refine Heap.Counts.putSlots fdt.maxFds 0 h (by rw [hwf.size, zero_add]) ?_
  rw [hall]
  exact hc

/-! ## New files -/

theorem Heap.Refs.setFile (hc : h.Refs refs) (hf : h.file f = none) (kind : Kind) :
    (Files.setFile f (some ⟨1, kind⟩) h).Refs (f ::ₘ refs) where
  live := by
    intro g file hg
    by_cases hgf : g = f
    · subst hgf
      rw [setFile_self] at hg
      obtain rfl := Option.some.inj hg
      rw [Multiset.count_cons_self, hc.dead g hf]
      exact ⟨rfl, one_pos⟩
    · rw [Multiset.count_cons_of_ne hgf]
      exact hc.live g file ((setFile_of_ne hgf).symm.trans hg)
  dead := by
    intro g hg
    by_cases hgf : g = f
    · subst hgf
      rw [setFile_self] at hg
      cases hg
    · rw [Multiset.count_cons_of_ne hgf]
      exact hc.dead g ((setFile_of_ne hgf).symm.trans hg)

theorem setFile_eq_some {g : ℕ} {kind : Kind} {file : File}
    (hg : (setFile f (some ⟨1, kind⟩) h).file g = some file) :
    g = f ∧ file.kind = kind ∨ h.file g = some file := by
  by_cases hgf : g = f
  · subst hgf
    rw [setFile_self] at hg
    obtain rfl := Option.some.inj hg
    exact Or.inl ⟨rfl, rfl⟩
  · exact Or.inr ((setFile_of_ne hgf).symm.trans hg)

theorem setFile_of_some {g : ℕ} {x : Option File} {file : File} (hf : h.file f = none)
    (hg : h.file g = some file) : (setFile f x h).file g = some file := by
  have hgf : g ≠ f := fun heq => by
    rw [heq, hf] at hg
    cases hg
  rw [setFile_of_ne hgf, hg]

theorem Heap.Counts.vfsOpen (hc : h.Counts refs) (hf : h.file f = none) :
    (Files.setFile f (some ⟨1, .other⟩) h).Counts (f ::ₘ refs) := by
  have hnot : ∀ (e : End) k, Kind.other ≠ e.kind k := fun e k => by cases e <;> exact nofun
  refine ⟨hc.toRefs.setFile hf .other, ?_, ?_, ?_⟩
  · intro g file e k hg hkind
    rcases setFile_eq_some hg with ⟨-, hother⟩ | hg
    · exact absurd (hother.symm.trans hkind) (hnot e k)
    · exact hc.pipes.file g file e k hg hkind
  · intro g g' file file' e k hg hg' hkind hkind'
    rcases setFile_eq_some hg with ⟨-, hother⟩ | hg
    · exact absurd (hother.symm.trans hkind) (hnot e k)
    rcases setFile_eq_some hg' with ⟨-, hother⟩ | hg'
    · exact absurd (hother.symm.trans hkind') (hnot e k)
    exact hc.pipes.unique g g' file file' e k hg hg' hkind hkind'
  · intro e k hne
    obtain ⟨g, file, hg, hkind⟩ := hc.pipes.has e k hne
    exact ⟨g, file, setFile_of_some hf hg, hkind⟩

/-! ## New pipes -/

section NewPipe

variable {rf wf : ℕ}

theorem ends_pipeCreate (e : End) : (pipeCreate k rf wf h).ends k e = 1 := by
  unfold Heap.ends pipeCreate
  rw [setPipe_self]
  cases e <;> rfl

theorem ends_pipeCreate_ne {k' : ℕ} (hk : k' ≠ k) (e : End) :
    (pipeCreate k rf wf h).ends k' e = h.ends k' e := by
  unfold Heap.ends pipeCreate
  rw [setPipe_of_ne hk]
  rfl

/-- The file for an end of the new pipe. -/
def End.pick (rf wf : ℕ) : End → ℕ
  | .reader => rf
  | .writer => wf

theorem pipeCreate_eq_some {g : ℕ} {file : File}
    (hg : (pipeCreate k rf wf h).file g = some file) :
    (∃ e : End, g = e.pick rf wf ∧ file.kind = e.kind k) ∨ h.file g = some file := by
  rcases setFile_eq_some hg with ⟨rfl, hkind⟩ | hg
  · exact Or.inl ⟨.reader, rfl, hkind⟩
  rcases setFile_eq_some hg with ⟨rfl, hkind⟩ | hg
  · exact Or.inl ⟨.writer, rfl, hkind⟩
  · exact Or.inr hg

theorem pipeCreate_pick (hne : rf ≠ wf) (e : End) :
    (pipeCreate k rf wf h).file (e.pick rf wf) = some ⟨1, e.kind k⟩ := by
  cases e with
  | reader => exact setFile_self
  | writer =>
    refine (setFile_of_ne (Ne.symm hne)).trans ?_
    exact setFile_self

theorem Heap.Counts.pipeCreate (hc : h.Counts refs) (hrf : h.file rf = none)
    (hwf : h.file wf = none) (hne : rf ≠ wf) (hk : h.pipe k = none) :
    (Files.pipeCreate k rf wf h).Counts (rf ::ₘ wf ::ₘ refs) := by
  have hrefs := hc.toRefs.setFile hwf (.writeEnd k)
  have hrefs' := hrefs.setFile ((setFile_of_ne hne).trans hrf) (.readEnd k)
  -- no file belongs to the pipe before
  have hnew : ∀ g file (e : End), h.file g = some file → file.kind ≠ e.kind k := by
    intro g file e hg hkind
    have hone := hc.pipes.file g file e k hg hkind
    rw [Heap.ends, hk] at hone
    cases hone
  refine ⟨⟨hrefs'.live, hrefs'.dead⟩, ?_, ?_, ?_⟩
  · intro g file e k' hg hkind
    rcases pipeCreate_eq_some hg with ⟨e', -, hkind'⟩ | hg
    · obtain ⟨rfl, rfl⟩ := End.kind_inj (hkind.symm.trans hkind')
      exact ends_pipeCreate e
    · have hkk : k' ≠ k := fun heq => hnew g file e hg (heq ▸ hkind)
      rw [ends_pipeCreate_ne hkk]
      exact hc.pipes.file g file e k' hg hkind
  · intro g g' file file' e k' hg hg' hkind hkind'
    rcases pipeCreate_eq_some hg with ⟨e1, rfl, hk1⟩ | hold
    · obtain ⟨rfl, rfl⟩ := End.kind_inj (hkind.symm.trans hk1)
      rcases pipeCreate_eq_some hg' with ⟨e2, rfl, hk2⟩ | hold'
      · obtain ⟨-, rfl⟩ := End.kind_inj (hkind'.symm.trans hk2)
        rfl
      · exact absurd hkind' (hnew g' file' e hold')
    · rcases pipeCreate_eq_some hg' with ⟨e2, rfl, hk2⟩ | hold'
      · obtain ⟨rfl, rfl⟩ := End.kind_inj (hkind'.symm.trans hk2)
        exact absurd hkind (hnew g file e hold)
      · exact hc.pipes.unique g g' file file' e k' hold hold' hkind hkind'
  · intro e k' hne'
    by_cases hkk : k' = k
    · subst hkk
      exact ⟨_, _, pipeCreate_pick hne e, rfl⟩
    rw [ends_pipeCreate_ne hkk] at hne'
    obtain ⟨g, file, hg, hkind⟩ := hc.pipes.has e k' hne'
    refine ⟨g, file, ?_, hkind⟩
    refine (setFile_of_some ((setFile_of_ne hne).trans hrf) ?_ : _)
    exact setFile_of_some hwf hg

end NewPipe

end NoobKernel.Files
