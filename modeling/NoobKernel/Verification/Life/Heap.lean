import NoobKernel.Library.Pool
import NoobKernel.Model.Life
import NoobKernel.Verification.Files.Table

/-! # Objects and descriptor tables of processes -/

namespace NoobKernel.Files

open Library Outcome List Slot

variable {fdt : FdTable} {h : Heap} {f : ℕ} {file : File} {refs : Multiset ℕ}

def Heap.Holds (h : Heap) (refs : Multiset ℕ) : Prop :=
  ∀ f ∈ refs, ∃ file, h.file f = some file ∧ 0 < file.refcnt

theorem filePut_gets (hf : h.file f = some file) (hpos : 0 < file.refcnt) :
    filePut f (h.gets (f ::ₘ refs)) = .ok (h.gets refs) := by
  have hfile : (h.gets (f ::ₘ refs)).file f =
      some { file with refcnt := file.refcnt + (refs.count f + 1) } := by
    simp [Heap.gets, hf]
  have hset : Function.update (h.gets (f ::ₘ refs)).file f
      (some { file with refcnt := file.refcnt + (refs.count f + 1) - 1 }) = (h.gets refs).file := by
    funext g
    by_cases hg : g = f
    · subst hg
      simp [Heap.gets, hf]
    · simp [Heap.gets, hg]
  rw [filePut, hfile]
  dsimp only
  rw [if_neg (by omega), setFile, hset]
  rfl

theorem putSlots_gets (fdt : FdTable) (n : ℕ) : ∀ i, i + n ≤ fdt.fds.length →
    h.Holds (((fdt.fds.drop i).take n).map files).sum →
    putSlots fdt (range' i n) (h.gets (((fdt.fds.drop i).take n).map files).sum) =
      .ok h := by
  induction n with
  | zero =>
    intro i _ _
    rw [take_zero, map_nil, sum_nil, Heap.gets_zero]
    rfl
  | succ n ih =>
    intro i hlen hholds
    have hlt : i < fdt.fds.length := by omega
    rw [drop_eq_getElem_cons hlt, take_succ_cons, map_cons, sum_cons]
      at hholds ⊢
    rw [range'_succ, putSlots, FdTable.slot_eq (getElem?_eq_getElem hlt), ok_bind]
    cases hs : fdt.fds[i] with
    | null =>
      rw [hs, files_null, zero_add] at hholds
      rw [files_null, zero_add]
      exact ih (i + 1) (by omega) hholds
    | reserved =>
      rw [hs, files_reserved, zero_add] at hholds
      rw [files_reserved, zero_add]
      exact ih (i + 1) (by omega) hholds
    | file f =>
      rw [hs, files_file, Multiset.singleton_add] at hholds
      obtain ⟨file, hf, hpos⟩ := hholds f (Multiset.mem_cons_self f _)
      rw [files_file, Multiset.singleton_add]
      dsimp only
      rw [filePut_gets hf hpos, ok_bind]
      exact ih (i + 1) (by omega) (fun g hg => hholds g (Multiset.mem_cons_of_mem hg))

theorem fdTableFree_gets (hwf : fdt.Wf) (hholds : h.Holds fdt.files) :
    fdTableFree fdt (h.gets fdt.files) = .ok h := by
  have hall : (fdt.fds.drop 0).take fdt.maxFds = fdt.fds := by
    rw [drop_zero, take_of_length_le hwf.size.le]
  have hrun := putSlots_gets (h := h) fdt fdt.maxFds 0 (by rw [hwf.size, zero_add])
  rw [hall] at hrun
  rw [fdTableFree, range_eq_range']
  exact hrun hholds

theorem Heap.Holds.kept (hholds : h.Holds fdt.files) : h.Holds fdt.kept := by
  intro f hf
  refine hholds f ?_
  rw [FdTable.files_eq]
  exact Multiset.mem_add.mpr (Or.inl hf)

theorem Heap.Holds.live (hholds : h.Holds refs) : ∀ f ∈ refs, h.file f ≠ none := by
  intro f hf
  obtain ⟨file, hfile, -⟩ := hholds f hf
  rw [hfile]
  exact Option.some_ne_none file

end NoobKernel.Files

namespace NoobKernel.Life

open Library Outcome

variable {s s' : Kernel} {h : Objects} {a : ℕ} {u0 : ℕ → Bool} {l : List ℕ} {t : Table}

/-! ## The heap -/

theorem kfree_stock (hs : Stock u0 l h.used) (ha : a ∈ l) :
    ∃ h', kfree a h = .ok h' ∧ Stock u0 (l.erase a) h'.used :=
  ⟨_, if_pos (hs.used ha), hs.give ha⟩

/-- The next `n` allocations succeed. -/
def Room : ℕ → Objects → Prop
  | 0, _ => True
  | n + 1, h => (alloc h).1.isSome = true ∧ Room n (alloc h).2

instance decidableRoom : ∀ n h, Decidable (Room n h)
  | 0, _ => .isTrue trivial
  | n + 1, h => @instDecidableAnd _ _ _ (decidableRoom n (alloc h).2)

theorem alloc_stock (hs : Stock u0 l h.used) :
    (∃ h', alloc h = (none, h') ∧ Stock u0 l h'.used ∧ ∀ n, ¬ Room (n + 1) h) ∨
      ∃ a h', alloc h = (some a, h') ∧ Stock u0 (a :: l) h'.used ∧
        ∀ n, Room (n + 1) h ↔ Room n h' := by
  have hroom : ∀ n, Room (n + 1) h ↔ (alloc h).1.isSome = true ∧ Room n (alloc h).2 :=
    fun _ => Iff.rfl
  simp only [hroom]
  unfold alloc
  split
  · exact Or.inl ⟨h, rfl, hs, by simp⟩
  next a answers _ =>
    split
    next ha => exact Or.inr ⟨a, _, rfl, hs.take ha.2, by simp⟩
    · exact Or.inl ⟨_, rfl, hs, by simp⟩

/-! ## Descriptor tables -/

theorem emptyTable_wf : emptyTable.Wf := by
  apply Files.wf_fdTableAlloc
  rfl

theorem files_emptyTable : emptyTable.files = 0 := Files.sum_files_replicate _

theorem fdTableAlloc_spec (hs : Stock u0 l s.obj.used) :
    (¬ Room 2 s.obj ∧ ∃ obj, fdTableAlloc s = .ok (none, { s with obj }) ∧ Stock u0 l obj.used) ∨
    Room 2 s.obj ∧ ∃ t obj, fdTableAlloc s = .ok (some t, { s with obj }) ∧
      t.table = emptyTable ∧ Stock u0 (t.fds :: t.fdt :: l) obj.used := by
  unfold fdTableAlloc
  rcases alloc_stock hs with ⟨obj1, hnone, hs1, hroom⟩ | ⟨fdt, obj1, hsome, hs1, hroom⟩
  · rw [hnone]
    exact Or.inl ⟨hroom 1, _, rfl, hs1⟩
  rw [hsome, hroom 1]
  dsimp only
  rcases alloc_stock hs1 with ⟨obj2, hnone, hs2, hroom'⟩ | ⟨fds, obj2, hsome', hs2, hroom'⟩
  · obtain ⟨obj, hrun, hs3⟩ := kfree_stock hs2 List.mem_cons_self
    rw [hnone]
    dsimp only
    rw [hrun, ok_bind]
    exact Or.inl ⟨hroom' 0, _, rfl, by simpa using hs3⟩
  · rw [hsome', hroom' 0]
    exact Or.inr ⟨trivial, ⟨fdt, fds, emptyTable⟩, _, rfl, rfl, hs2⟩

theorem fdTableFree_spec {files : Files.Heap} (hwf : t.table.Wf) (hholds : files.Holds t.table.files)
    (hfiles : s.files = files.gets t.table.files) (hs : Stock u0 (t.fds :: t.fdt :: l) s.obj.used) :
    ∃ obj, fdTableFree (some t) s = .ok { s with files, obj } ∧ Stock u0 l obj.used := by
  obtain ⟨obj1, hrun1, hs1⟩ := kfree_stock hs List.mem_cons_self
  rw [List.erase_cons_head] at hs1
  obtain ⟨obj2, hrun2, hs2⟩ := kfree_stock hs1 List.mem_cons_self
  rw [List.erase_cons_head] at hs2
  refine ⟨obj2, ?_, hs2⟩
  rw [fdTableFree, hfiles, Files.fdTableFree_gets hwf hholds, ok_bind, hrun1,
    ok_bind, hrun2, ok_bind]

/-- `fd_table_dup` makes a table with references of its own, or nothing. -/
theorem fdTableDup_spec (hs : Stock u0 l s.obj.used) (parent : Option Table)
    (hparent : ∀ t, parent = some t → t.table.Wf ∧ s.files.Holds t.table.files) :
    (∃ obj, fdTableDup parent s = .ok (none, { s with obj }) ∧ Stock u0 l obj.used) ∨
      ∃ t files obj, fdTableDup parent s = .ok (some t, { s with files, obj }) ∧ t.table.Wf ∧
        s.files.Holds t.table.files ∧ files = s.files.gets t.table.files ∧
        Stock u0 (t.fds :: t.fdt :: l) obj.used := by
  cases parent with
  | none => exact Or.inl ⟨s.obj, rfl, hs⟩
  | some p =>
    obtain ⟨hwf, hholds⟩ := hparent p rfl
    unfold fdTableDup
    dsimp only
    rcases fdTableAlloc_spec hs with ⟨-, obj, hrun, hs'⟩ | ⟨-, t, obj, hrun, ht, hs'⟩
    · rw [hrun]
      exact Or.inl ⟨obj, rfl, hs'⟩
    rw [hrun, ok_bind]
    dsimp only
    have hdup := Files.fdTableDup_spec hwf hholds.live
    obtain ⟨⟨table, files⟩, hslots, heq⟩ := bind_eq_ok.mp hdup
    obtain ⟨htable, rfl⟩ := ok_mk_inj heq
    obtain rfl := Option.some.inj htable
    have hslots' : Files.dupSlots p.table (List.range (min p.table.maxFds t.table.maxFds))
        t.table s.files = .ok (p.table.copy, s.files.gets p.table.kept) := by
      rw [ht]
      exact hslots
    rw [hslots', ok_bind]
    refine Or.inr ⟨{ t with table := p.table.copy }, _, obj, rfl, hwf.copy, ?_, ?_, hs'⟩
    · rw [Files.FdTable.files_copy]
      exact hholds.kept
    · rw [Files.FdTable.files_copy]

end NoobKernel.Life
