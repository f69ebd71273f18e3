import NoobKernel.Model.Pipe
import Mathlib.Data.List.Range
import Mathlib.Data.Nat.ModEq

/-! # Pipes are first in, first out

Between two steps the buffer holds the bytes that were stored and not yet taken. The one
step that can break this is a writer that runs on after its sleep when the buffer has
been filled again in the meantime. -/

namespace NoobKernel.Pipe

open Function List Nat

variable {ι : Type} {p : Pipe ι}

/-! ## The contents of the buffer -/

/-- The bytes in the buffer, first the one that is read next. -/
def contents (p : Pipe ι) : List Byte :=
  (List.range p.count).map (fun i => p.buf ((p.rd + i) % pipeSize))

/-- The counters of the buffer fit together. -/
structure WellFormed (p : Pipe ι) : Prop where
  rd_lt : p.rd < pipeSize
  count_le : p.count ≤ pipeSize
  wr_eq : p.wr = (p.rd + p.count) % pipeSize

theorem contents_cons {n : ℕ} (hrd : p.rd < pipeSize) (hcount : p.count = n + 1) :
    contents p = p.buf p.rd ::
      contents { p with rd := (p.rd + 1) % pipeSize, count := p.count - 1 } := by
  unfold contents
  simp only [hcount, range_succ_eq_map, map_cons, map_map,
    add_zero, mod_eq_of_lt hrd, List.cons.injEq, true_and]
  apply map_congr_left
  intro i _
  simp only [comp, succ_eq_add_one, mod_add_mod]
  congr 2
  omega

/-- What the loop of `pipe_read` takes is the front of the buffer. -/
theorem takeBytes_spec (n : ℕ) : ∀ p : Pipe ι, WellFormed p →
    WellFormed (takeBytes n p).2 ∧ contents p = (takeBytes n p).1 ++ contents (takeBytes n p).2 := by
  induction n with
  | zero => exact fun p h => ⟨h, rfl⟩
  | succ n ih =>
    intro p h
    unfold takeBytes
    by_cases hzero : p.count = 0
    · rw [if_pos hzero]
      exact ⟨h, rfl⟩
    rw [if_neg hzero]
    obtain ⟨m, hm⟩ := exists_eq_succ_of_ne_zero hzero
    have hrd := h.rd_lt
    have hle := h.count_le
    have hwr := h.wr_eq
    have hnext : WellFormed { p with rd := (p.rd + 1) % pipeSize, count := p.count - 1 } := by
      refine ⟨mod_lt _ (by decide), ?_, ?_⟩
      · dsimp only
        omega
      · dsimp only
        rw [mod_add_mod, hwr]
        congr 1
        omega
    obtain ⟨hwf, hcontents⟩ := ih _ hnext
    refine ⟨hwf, ?_⟩
    rw [contents_cons hrd hm, hcontents]
    rfl

/-- A byte stored in a buffer with room goes to its end and overwrites none. -/
theorem contents_storeByte (h : WellFormed p) (hroom : p.count < pipeSize) (c : Byte) :
    contents (storeByte c p) = contents p ++ [c] := by
  have hwr := h.wr_eq
  unfold contents storeByte
  simp only [range_succ, map_append, map_cons, map_nil]
  congr 1
  · apply map_congr_left
    intro i hi
    have hlt : i < p.count := mem_range.mp hi
    apply update_of_ne
    rw [hwr]
    intro heq
    have hmod : Nat.ModEq pipeSize i p.count := Nat.ModEq.add_left_cancel' p.rd heq
    rw [Nat.ModEq, mod_eq_of_lt (hlt.trans hroom), mod_eq_of_lt hroom] at hmod
    exact hlt.ne hmod
  · rw [hwr, update_self]

theorem WellFormed.storeByte (h : WellFormed p) (hroom : p.count < pipeSize) (c : Byte) :
    WellFormed (storeByte c p) := by
  have hwr := h.wr_eq
  refine ⟨h.rd_lt, hroom, ?_⟩
  dsimp only [Pipe.storeByte]
  rw [hwr, mod_add_mod, add_assoc]

/-! ## Steps -/

/-- The stored bytes are those that were taken, followed by those in the buffer. -/
structure Fifo (s : State ι) : Prop where
  wellFormed : WellFormed s.pipe
  stored_eq : s.stored = s.taken ++ contents s.pipe

structure SameBytes (s s' : State ι) : Prop where
  buf : s'.pipe.buf = s.pipe.buf
  rd : s'.pipe.rd = s.pipe.rd
  wr : s'.pipe.wr = s.pipe.wr
  count : s'.pipe.count = s.pipe.count
  stored : s'.stored = s.stored
  taken : s'.taken = s.taken

namespace SameBytes

variable {s s' s'' : State ι}

theorem refl (s : State ι) : SameBytes s s := ⟨rfl, rfl, rfl, rfl, rfl, rfl⟩

theorem trans (h : SameBytes s s') (h' : SameBytes s' s'') : SameBytes s s'' :=
  ⟨h'.buf.trans h.buf, h'.rd.trans h.rd, h'.wr.trans h.wr, h'.count.trans h.count,
    h'.stored.trans h.stored, h'.taken.trans h.taken⟩

variable [DecidableEq ι]

theorem goto (i : ι) (pt : Point) (s : State ι) : SameBytes s (goto i pt s) :=
  ⟨rfl, rfl, rfl, rfl, rfl, rfl⟩

theorem wakeAll (l : List ι) : ∀ s : State ι, SameBytes s (wakeAll l s) := by
  induction l with
  | nil => exact fun s => refl s
  | cons i l ih => exact fun s => (goto i _ s).trans (ih (wake i s))

theorem wakeupOneReader (s : State ι) : SameBytes s (wakeupOneReader s) := by
  unfold Pipe.wakeupOneReader
  split
  · exact refl s
  · exact ⟨rfl, rfl, rfl, rfl, rfl, rfl⟩

theorem wakeupOneWriter (s : State ι) : SameBytes s (wakeupOneWriter s) := by
  unfold Pipe.wakeupOneWriter
  split
  · exact refl s
  · exact ⟨rfl, rfl, rfl, rfl, rfl, rfl⟩

theorem releaseReader (s : State ι) : SameBytes s (releaseReader s) := by
  have h := wakeAll s.pipe.wq
    { s with pipe := { s.pipe with nreaders := s.pipe.nreaders - 1, wq := [] } }
  exact ⟨h.buf, h.rd, h.wr, h.count, h.stored, h.taken⟩

theorem releaseWriter (s : State ι) : SameBytes s (releaseWriter s) := by
  have h := wakeAll s.pipe.rq
    { s with pipe := { s.pipe with nwriters := s.pipe.nwriters - 1, rq := [] } }
  exact ⟨h.buf, h.rd, h.wr, h.count, h.stored, h.taken⟩

end SameBytes

theorem Fifo.congr {s s' : State ι} (h : Fifo s) (hsame : SameBytes s s') : Fifo s' := by
  have hwf := h.wellFormed
  refine ⟨⟨?_, ?_, ?_⟩, ?_⟩
  · rw [hsame.rd]
    exact hwf.rd_lt
  · rw [hsame.count]
    exact hwf.count_le
  · rw [hsame.wr, hsame.rd, hsame.count]
    exact hwf.wr_eq
  · unfold contents
    rw [hsame.stored, hsame.taken, hsame.buf, hsame.rd, hsame.count]
    exact h.stored_eq

theorem Fifo.initial : Fifo (initial : State ι) :=
  ⟨⟨show 0 < pipeSize by decide, show 0 ≤ pipeSize by decide, rfl⟩, rfl⟩

variable [DecidableEq ι]

section Steps

variable {s : State ι} {i : ι} {total count : ℕ} {c : Byte} {rest : List Byte}

theorem Fifo.readSection (h : Fifo s) : Fifo (readSection i count s) := by
  unfold Pipe.readSection
  split
  · obtain ⟨hwf, hcontents⟩ := takeBytes_spec count s.pipe h.wellFormed
    refine ⟨hwf, ?_⟩
    change s.stored = s.taken ++ (takeBytes count s.pipe).1 ++ contents (takeBytes count s.pipe).2
    rw [h.stored_eq, hcontents, append_assoc]
  · split
    · exact h.congr (SameBytes.goto _ _ _)
    · exact h.congr ⟨rfl, rfl, rfl, rfl, rfl, rfl⟩

theorem Fifo.writeByte (h : Fifo s) (hroom : s.pipe.count < pipeSize) :
    Fifo (writeByte i total c rest s) := by
  refine ⟨h.wellFormed.storeByte hroom c, ?_⟩
  change s.stored ++ [c] = s.taken ++ contents (storeByte c s.pipe)
  rw [contents_storeByte h.wellFormed hroom, h.stored_eq, append_assoc]

theorem Fifo.writeSection (h : Fifo s) : Fifo (writeSection i total c rest s) := by
  unfold Pipe.writeSection
  split
  · split
    · exact h.congr (SameBytes.goto _ _ _)
    · exact h.congr ⟨rfl, rfl, rfl, rfl, rfl, rfl⟩
  next hfull => exact h.writeByte (lt_of_le_of_ne h.wellFormed.count_le hfull)

theorem Fifo.writeResume (h : Fifo s) (hroom : s.pipe.count < pipeSize ∨ s.pipe.nreaders = 0) :
    Fifo (writeResume i total c rest s) := by
  unfold Pipe.writeResume
  split
  · exact h.congr (SameBytes.goto _ _ _)
  next hfull =>
    apply h.writeByte
    have hle := h.wellFormed.count_le
    rcases hroom with hlt | hnone
    · exact hlt
    · exact lt_of_le_of_ne hle (fun he => hfull ⟨he, hnone⟩)

end Steps

/-- A writer that runs on after its sleep finds room, or no reader any more. -/
def ResumeSafe (i : ι) (s : State ι) : Prop :=
  ∀ total rest, s.point i = .writeWoken total rest → s.pipe.count < pipeSize ∨ s.pipe.nreaders = 0

theorem Fifo.advance {s : State ι} {i : ι} (h : Fifo s) (hok : ResumeSafe i s) :
    Fifo (advance i s) := by
  unfold Pipe.advance
  split
  · exact h
  · exact h
  · exact h
  · exact h.readSection
  · exact h.readSection
  · exact h.congr ((SameBytes.wakeupOneWriter s).trans (SameBytes.goto _ _ _))
  · exact h.congr (SameBytes.goto _ _ _)
  · exact h.congr (SameBytes.goto _ _ _)
  · exact h.writeSection
  next total c rest hpoint => exact h.writeResume (hok total (c :: rest) hpoint)
  · exact h.congr ((SameBytes.wakeupOneReader s).trans (SameBytes.goto _ _ _))

theorem Run.fifo {s : State ι} (h : Run ResumeSafe s) : Fifo s := by
  induction h with
  | create => exact Fifo.initial
  | read _ _ _ _ ih =>
    unfold readCall
    split <;> exact ih.congr (SameBytes.goto _ _ _)
  | write _ _ _ _ ih =>
    unfold writeCall
    split_ifs <;> exact ih.congr (SameBytes.goto _ _ _)
  | advance _ _ hok ih => exact ih.advance hok
  | releaseReader _ _ ih => exact ih.congr (SameBytes.releaseReader _)
  | releaseWriter _ _ ih => exact ih.congr (SameBytes.releaseWriter _)

/-- In a run in which every writer that resumes finds room, the counters stay in range
and the bytes come out in the order in which they were stored. -/
theorem pipe_fifo {s : State ι} (h : Run ResumeSafe s) :
    s.pipe.count ≤ pipeSize ∧ s.pipe.wr = (s.pipe.rd + s.pipe.count) % pipeSize ∧
      s.taken <+: s.stored ∧ s.stored = s.taken ++ contents s.pipe := by
  have hfifo := h.fifo
  refine ⟨hfifo.wellFormed.count_le, hfifo.wellFormed.wr_eq, ?_, hfifo.stored_eq⟩
  exact ⟨contents s.pipe, hfifo.stored_eq.symm⟩

/-- Process `0` stores a byte and process `1` takes it. -/
theorem pipe_fifo_transfer : ∃ s : State ℕ, Run ResumeSafe s ∧ s.taken = [7] ∧
    s.stored = s.taken ++ contents s.pipe := by
  have h1 : Run ResumeSafe (advance 0 (writeCall 0 [7] (initial : State ℕ))) :=
    .advance (.write .create rfl rfl (by decide)) rfl (fun _ _ h => nomatch h)
  have h2 : Run ResumeSafe
      (advance 1 (readCall 1 5 (advance 0 (writeCall 0 [7] (initial : State ℕ))))) :=
    .advance (.read h1 rfl rfl (by decide)) rfl (fun _ _ h => nomatch h)
  exact ⟨_, h2, by decide, (pipe_fifo h2).2.2.2⟩

/-! ## A writer that resumes on a full buffer -/

/-- Process `0` has stored `n` zero bytes of a write of `n + m + 1`. -/
def filling (n m : ℕ) : State ℕ where
  pipe := { (pipeCreate : Pipe ℕ) with wr := n % pipeSize, count := n }
  point := update (fun _ => .out 0) 0 (.writeTop n (List.replicate (m + 1) 0))
  stored := List.replicate n 0
  taken := []

theorem advance_filling_writeTop {n m : ℕ} (hn : n < pipeSize) :
    advance 0 (filling n (m + 1)) =
      writeByte 0 n 0 (List.replicate (m + 1) 0) (filling n (m + 1)) := by
  simp [advance, filling, writeSection, hn.ne, replicate_succ]

theorem advance_filling {n m : ℕ} (hn : n < pipeSize) :
    advance 0 (advance 0 (filling n (m + 1))) = filling (n + 1) m := by
  rw [advance_filling_writeTop hn]
  simp [advance, filling, writeByte, goto, storeByte, pipeCreate, wakeupOneReader,
    replicate_succ, ← replicate_succ']

theorem run_filling (m : ℕ) : ∀ n, n + m ≤ pipeSize → Run (fun _ _ => True) (filling n m) →
    Run (fun _ _ => True) (filling (n + m) 0) := by
  induction m with
  | zero => exact fun n _ h => h
  | succ m ih =>
    intro n hn h
    have hlt : n < pipeSize := by omega
    have hlive : (advance 0 (filling n (m + 1))).pipe.freed = false := by
      rw [advance_filling_writeTop hlt]
      rfl
    have hnext : Run (fun _ _ => True) (filling (n + 1) m) := by
      rw [← advance_filling hlt]
      exact .advance (.advance h rfl True.intro) hlive True.intro
    have hrun := ih (n + 1) (by omega) hnext
    rwa [show n + 1 + m = n + (m + 1) by omega] at hrun

theorem writeCall_initial (m : ℕ) :
    writeCall 0 (List.replicate (m + 1) 0) (initial : State ℕ) = filling 0 m := by
  simp [writeCall, filling, initial, goto, pipeCreate, replicate_succ]

theorem run_full : Run (fun _ _ => True) (filling pipeSize 0) := by
  have h : Run (fun _ _ => True) (filling 0 pipeSize) := by
    rw [← writeCall_initial]
    refine .write .create rfl rfl ?_
    rw [length_replicate]
    decide
  have hrun := run_filling pipeSize 0 (by omega) h
  rwa [zero_add] at hrun

/-- Writer `0` sleeps on a full buffer and is woken by reader `1`, and before it runs on
writer `2` has filled the buffer again. -/
theorem pipe_overflow : ∃ s : State ℕ, Run (fun _ _ => True) s ∧ pipeSize < s.pipe.count := by
  let s1 := advance 0 (filling pipeSize 0)
  let s2 := advance 1 (advance 1 (readCall 1 1 s1))
  let s3 := advance 2 (writeCall 2 [1] s2)
  have h1 : Run (fun _ _ => True) s1 := .advance run_full rfl True.intro
  have h2 : Run (fun _ _ => True) s2 :=
    .advance (.advance (.read h1 rfl rfl (by decide)) rfl True.intro) rfl True.intro
  have h3 : Run (fun _ _ => True) s3 := .advance (.write h2 rfl rfl (by decide)) rfl True.intro
  exact ⟨advance 0 s3, .advance h3 rfl True.intro, by decide +kernel⟩

end NoobKernel.Pipe
