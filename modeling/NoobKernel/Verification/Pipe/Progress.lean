import NoobKernel.Model.Pipe
import Mathlib.Algebra.Order.BigOperators.Group.Finset

/-! # Pipes do not deadlock

A process that has been woken, or that has changed the buffer and not yet called its
wakeup, is on its way to a sleeper. While a reader sleeps there are at least as many of
these as bytes in the buffer. While a writer sleeps there is a byte in the buffer or one
of these on its way to a writer. -/

namespace NoobKernel.Pipe

open Finset Function Nat List

variable {ι : Type}

/-! ## Points -/

namespace Point

def onReadQueue : Point → Bool
  | readAsleep _ => true
  | _ => false

def onWriteQueue : Point → Bool
  | writeAsleep _ _ => true
  | _ => false

def asleep (pt : Point) : Bool := pt.onReadQueue || pt.onWriteQueue

/-- Woken, or between its change of the buffer and its wakeup. -/
def pending : Point → Bool
  | readWoken _ | readDone _ | writeWoken _ _ | writeDone _ _ => true
  | _ => false

/-- On its way to a sleeping reader: a woken reader, or a writer before its wakeup. -/
def wakesReader : Point → ℕ
  | readWoken _ | writeDone _ _ => 1
  | _ => 0

def wakesWriter : Point → ℕ
  | writeWoken _ _ | readDone _ => 1
  | _ => 0

/-- The arguments that a process keeps while it is in a call. -/
def Valid : Point → Prop
  | readTop count | readAsleep count | readWoken count => 0 < count
  | writeTop _ rest | writeAsleep _ rest | writeWoken _ rest => rest ≠ []
  | _ => True

theorem wakesReader_eq_zero {pt : Point} (h : pt.pending = false) : pt.wakesReader = 0 := by
  cases pt <;> simp_all [pending, wakesReader]

theorem wakesWriter_eq_zero {pt : Point} (h : pt.pending = false) : pt.wakesWriter = 0 := by
  cases pt <;> simp_all [pending, wakesWriter]

theorem wakes_of_asleep {pt : Point} (h : pt.asleep = true) :
    pt.wakesReader = 0 ∧ pt.wakesWriter = 0 := by
  cases pt <;> simp_all [asleep, onReadQueue, onWriteQueue, wakesReader, wakesWriter]

end Point

/-! ## The wait queues -/

/-- A wait queue lists the processes that are asleep on it. -/
structure Lists (q : List ι) (sleeps : Point → Bool) (point : ι → Point) : Prop where
  nodup : q.Nodup
  mem : ∀ i, i ∈ q ↔ sleeps (point i) = true

structure Queues (s : State ι) : Prop where
  rq : Lists s.pipe.rq Point.onReadQueue s.point
  wq : Lists s.pipe.wq Point.onWriteQueue s.point
  valid : ∀ i, (s.point i).Valid

section Queues

variable {s s' : State ι} {i : ι} {pt : Point} {count total : ℕ} {rest : List Byte} {l : List ι}

theorem Queues.readAsleep (h : Queues s) (hi : i ∈ s.pipe.rq) :
    ∃ count, s.point i = .readAsleep count ∧ 0 < count := by
  have hr := (h.rq.mem i).mp hi
  have hvalid := h.valid i
  cases hpoint : s.point i <;> simp_all [Point.onReadQueue, Point.Valid]

theorem Queues.writeAsleep (h : Queues s) (hi : i ∈ s.pipe.wq) :
    ∃ total rest, s.point i = .writeAsleep total rest ∧ rest ≠ [] := by
  have hw := (h.wq.mem i).mp hi
  have hvalid := h.valid i
  cases hpoint : s.point i <;> simp_all [Point.onWriteQueue, Point.Valid]

variable [DecidableEq ι]

section Lists

variable {q q' : List ι} {sleeps : Point → Bool} {point : ι → Point}

theorem Lists.change (h : Lists q sleeps point) (hnodup : q'.Nodup) (hq : ∀ j ≠ i, j ∈ q' ↔ j ∈ q)
    (hi : i ∈ q' ↔ sleeps pt = true) : Lists q' sleeps (update point i pt) := by
  refine ⟨hnodup, ?_⟩
  intro j
  by_cases hj : j = i
  · subst hj
    rwa [update_self]
  · rw [update_of_ne hj, hq j hj, h.mem]

theorem Lists.stay (h : Lists q sleeps point) (hi : sleeps (point i) = false)
    (hpt : sleeps pt = false) :
    Lists q sleeps (update point i pt) := by
  apply h.change h.nodup (fun _ _ => Iff.rfl)
  simp [h.mem, hi, hpt]

theorem Lists.sleep (h : Lists q sleeps point) (hi : sleeps (point i) = false)
    (hpt : sleeps pt = true) :
    Lists (q ++ [i]) sleeps (update point i pt) := by
  have hnot : i ∉ q := by simp [h.mem, hi]
  apply h.change
  · exact h.nodup.append (nodup_singleton i) (disjoint_singleton.mpr hnot)
  · intro j hj
    simp [hj]
  · simp [hpt]

theorem Lists.wake (h : Lists (i :: l) sleeps point) (hpt : sleeps pt = false) :
    Lists l sleeps (update point i pt) := by
  obtain ⟨hnot, hnodup⟩ := nodup_cons.mp h.nodup
  apply h.change hnodup
  · intro j hj
    simp [hj]
  · simp [hnot, hpt]

end Lists

theorem Queues.valid_update (h : Queues s) (hvalid : pt.Valid) (j : ι) :
    (update s.point i pt j).Valid :=
  (forall_update_iff s.point (p := fun _ pt => pt.Valid)).mpr ⟨hvalid, fun j _ => h.valid j⟩ j

theorem Queues.move (h : Queues s) (hpoint : s'.point = update s.point i pt)
    (hrq : s'.pipe.rq = s.pipe.rq) (hwq : s'.pipe.wq = s.pipe.wq)
    (ha : (s.point i).asleep = false) (ha' : pt.asleep = false) (hvalid : pt.Valid) :
    Queues s' := by
  obtain ⟨hr, hw⟩ := Bool.or_eq_false_iff.mp ha
  obtain ⟨hr', hw'⟩ := Bool.or_eq_false_iff.mp ha'
  constructor
  · rw [hrq, hpoint]
    exact h.rq.stay hr hr'
  · rw [hwq, hpoint]
    exact h.wq.stay hw hw'
  · rw [hpoint]
    exact h.valid_update hvalid

theorem Queues.sleepRead (h : Queues s) (ha : (s.point i).asleep = false) (hcount : 0 < count) :
    Queues (goto i (.readAsleep count)
      { s with pipe := { s.pipe with rq := s.pipe.rq ++ [i] } }) := by
  obtain ⟨hr, hw⟩ := Bool.or_eq_false_iff.mp ha
  exact ⟨h.rq.sleep hr rfl, h.wq.stay hw rfl, h.valid_update hcount⟩

theorem Queues.sleepWrite (h : Queues s) (ha : (s.point i).asleep = false) (hrest : rest ≠ []) :
    Queues (goto i (.writeAsleep total rest)
      { s with pipe := { s.pipe with wq := s.pipe.wq ++ [i] } }) := by
  obtain ⟨hr, hw⟩ := Bool.or_eq_false_iff.mp ha
  exact ⟨h.rq.stay hr rfl, h.wq.sleep hw rfl, h.valid_update hrest⟩

theorem Queues.wakeReader (h : Queues s) (hrq : s.pipe.rq = i :: l) :
    Queues (wake i { s with pipe := { s.pipe with rq := l } }) := by
  obtain ⟨count, hpoint, hcount⟩ := h.readAsleep (i := i) (by simp [hrq])
  rw [wake, hpoint]
  exact ⟨(hrq ▸ h.rq).wake rfl, h.wq.stay (by rw [hpoint]; rfl) rfl, h.valid_update hcount⟩

theorem Queues.wakeWriter (h : Queues s) (hwq : s.pipe.wq = i :: l) :
    Queues (wake i { s with pipe := { s.pipe with wq := l } }) := by
  obtain ⟨total, rest, hpoint, hrest⟩ := h.writeAsleep (i := i) (by simp [hwq])
  rw [wake, hpoint]
  exact ⟨h.rq.stay (by rw [hpoint]; rfl) rfl, (hwq ▸ h.wq).wake rfl, h.valid_update hrest⟩

theorem wakeupOneReader_nil (hrq : s.pipe.rq = []) : wakeupOneReader s = s := by
  simp [wakeupOneReader, hrq]

theorem wakeupOneReader_cons (hrq : s.pipe.rq = i :: l) :
    wakeupOneReader s = wake i { s with pipe := { s.pipe with rq := l } } := by
  simp [wakeupOneReader, hrq]

theorem wakeupOneWriter_nil (hwq : s.pipe.wq = []) : wakeupOneWriter s = s := by
  simp [wakeupOneWriter, hwq]

theorem wakeupOneWriter_cons (hwq : s.pipe.wq = i :: l) :
    wakeupOneWriter s = wake i { s with pipe := { s.pipe with wq := l } } := by
  simp [wakeupOneWriter, hwq]

@[simp] theorem wakeAll_pipe (l : List ι) (s : State ι) : (wakeAll l s).pipe = s.pipe := by
  induction l generalizing s with
  | nil => rfl
  | cons i l ih => exact ih (wake i s)

end Queues

/-! ## Taking bytes out -/

/-- What `pipe_read` changes while it takes bytes out. -/
structure Drained (p : Pipe ι) (bytes : List Byte) (p' : Pipe ι) : Prop where
  count : p'.count + bytes.length = p.count
  rq : p'.rq = p.rq
  wq : p'.wq = p.wq
  nreaders : p'.nreaders = p.nreaders
  nwriters : p'.nwriters = p.nwriters

theorem takeBytes_drained (n : ℕ) :
    ∀ p : Pipe ι, Drained p (takeBytes n p).1 (takeBytes n p).2 := by
  induction n with
  | zero => exact fun p => ⟨rfl, rfl, rfl, rfl, rfl⟩
  | succ n ih =>
    intro p
    unfold takeBytes
    by_cases hzero : p.count = 0
    · rw [if_pos hzero]
      exact ⟨rfl, rfl, rfl, rfl, rfl⟩
    rw [if_neg hzero]
    have h := ih { p with rd := (p.rd + 1) % pipeSize, count := p.count - 1 }
    have hcount := h.count
    dsimp only at hcount
    refine ⟨?_, h.rq, h.wq, h.nreaders, h.nwriters⟩
    change (takeBytes n { p with rd := (p.rd + 1) % pipeSize, count := p.count - 1 }).2.count +
      (_ + 1) = p.count
    omega

theorem takeBytes_ne_nil {p : Pipe ι} {count : ℕ} (hn : 0 < count) (hp : 0 < p.count) :
    (takeBytes count p).1 ≠ [] := by
  obtain ⟨n, rfl⟩ := exists_eq_succ_of_ne_zero hn.ne'
  unfold takeBytes
  rw [if_neg hp.ne']
  simp

/-! ## Counting the processes on their way -/

section Counting

variable [Fintype ι] [DecidableEq ι]

theorem sum_update (f : Point → ℕ) (point : ι → Point) (i : ι) (pt : Point) :
    (∑ j, f (update point i pt j)) + f (point i) = (∑ j, f (point j)) + f pt := by
  have hnew := add_sum_erase univ (fun j => f (update point i pt j)) (mem_univ i)
  have hold := add_sum_erase univ (fun j => f (point j)) (mem_univ i)
  have hrest : ∑ j ∈ univ.erase i, f (update point i pt j) = ∑ j ∈ univ.erase i, f (point j) := by
    apply sum_congr rfl
    intro j hj
    rw [update_of_ne (ne_of_mem_erase hj)]
  simp only [update_self] at hnew
  omega

/-- The processes on their way to a sleeping reader. -/
def towardsReader (s : State ι) : ℕ := ∑ j, (s.point j).wakesReader

def towardsWriter (s : State ι) : ℕ := ∑ j, (s.point j).wakesWriter

structure Progress (s : State ι) : Prop where
  queues : Queues s
  readers : s.pipe.rq ≠ [] → s.pipe.count ≤ towardsReader s ∧ 0 < s.pipe.nwriters
  writers : s.pipe.wq ≠ [] → (0 < s.pipe.count ∨ 0 < towardsWriter s) ∧ 0 < s.pipe.nreaders

variable {s s' : State ι} {i : ι} {pt : Point} {count total : ℕ} {rest : List Byte} {c : Byte}

theorem Progress.change (h : Queues s') (hpoint : s'.point = update s.point i pt)
    (hreaders : s'.pipe.rq ≠ [] →
      s'.pipe.count + (s.point i).wakesReader ≤ towardsReader s + pt.wakesReader ∧
        0 < s'.pipe.nwriters)
    (hwriters : s'.pipe.wq ≠ [] →
      (0 < s'.pipe.count ∨ (s.point i).wakesWriter < towardsWriter s + pt.wakesWriter) ∧
        0 < s'.pipe.nreaders) : Progress s' := by
  have hread := sum_update Point.wakesReader s.point i pt
  have hwrite := sum_update Point.wakesWriter s.point i pt
  rw [← hpoint] at hread hwrite
  change towardsReader s' + _ = towardsReader s + _ at hread
  change towardsWriter s' + _ = towardsWriter s + _ at hwrite
  refine ⟨h, ?_, ?_⟩
  · intro hne
    obtain ⟨hcount, hopen⟩ := hreaders hne
    exact ⟨by omega, hopen⟩
  · intro hne
    obtain ⟨hor, hopen⟩ := hwriters hne
    exact ⟨by omega, hopen⟩

section

variable (h : Progress s)

include h

theorem Progress.move (ha : (s.point i).asleep = false) (ha' : pt.asleep = false)
    (hvalid : pt.Valid) (hreader : s.pipe.rq ≠ [] → (s.point i).wakesReader ≤ pt.wakesReader)
    (hwriter : s.pipe.wq ≠ [] → (s.point i).wakesWriter ≤ pt.wakesWriter) :
    Progress (goto i pt s) := by
  refine Progress.change (h.queues.move rfl rfl rfl ha ha' hvalid) rfl ?_ ?_
  · intro hne
    exact ⟨Nat.add_le_add (h.readers hne).1 (hreader hne), (h.readers hne).2⟩
  · intro hne
    have hle := hwriter hne
    exact ⟨(h.writers hne).1.imp_right (fun hlt => by omega), (h.writers hne).2⟩

/-! ## The steps of one process -/

theorem Progress.readSection (hpoint : s.point i = .readTop count ∨ s.point i = .readWoken count) :
    Progress (readSection i count s) := by
  obtain ⟨hcount, ha, hone, hzero⟩ : 0 < count ∧ (s.point i).asleep = false ∧
      (s.point i).wakesReader ≤ 1 ∧ (s.point i).wakesWriter = 0 := by
    have hvalid := h.queues.valid i
    rcases hpoint with hpt | hpt
    · rw [hpt] at hvalid ⊢
      exact ⟨hvalid, rfl, zero_le _, rfl⟩
    · rw [hpt] at hvalid ⊢
      exact ⟨hvalid, rfl, le_rfl, rfl⟩
  unfold Pipe.readSection
  by_cases hbytes : 0 < s.pipe.count
  · rw [if_pos hbytes]
    have hne := takeBytes_ne_nil hcount hbytes
    have hdrained := takeBytes_drained count s.pipe
    have hlen := length_pos_iff.mpr hne
    have hbytes' := hdrained.count
    simp only [if_neg hne]
    refine Progress.change (s := s) (h.queues.move rfl hdrained.rq hdrained.wq ha rfl True.intro) rfl
      ?_ ?_
    · intro hrq
      obtain ⟨hle, hopen⟩ := h.readers (hdrained.rq ▸ hrq)
      refine ⟨?_, hdrained.nwriters ▸ hopen⟩
      change (takeBytes count s.pipe).2.count + _ ≤ _ + 0
      omega
    · intro hwq
      refine ⟨Or.inr ?_, hdrained.nreaders ▸ (h.writers (hdrained.wq ▸ hwq)).2⟩
      rw [hzero]
      exact succ_pos _
  · rw [if_neg hbytes]
    by_cases hclosed : s.pipe.nwriters = 0
    · rw [if_pos hclosed]
      refine h.move ha rfl True.intro ?_ (fun _ => by rw [hzero]; exact zero_le _)
      intro hrq
      have hopen := (h.readers hrq).2
      omega
    · rw [if_neg hclosed]
      refine Progress.change (s := s) (h.queues.sleepRead ha hcount) rfl ?_ ?_
      · intro _
        refine ⟨?_, pos_of_ne_zero hclosed⟩
        have hwoken : (s.point i).wakesReader ≤ towardsReader s :=
          single_le_sum (f := fun j => (s.point j).wakesReader) (fun _ _ => zero_le _)
            (mem_univ i)
        change s.pipe.count + _ ≤ _
        omega
      · intro hwq
        obtain ⟨hor, hopen⟩ := h.writers hwq
        rw [hzero]
        exact ⟨hor, hopen⟩

theorem Progress.writeByte (ha : (s.point i).asleep = false) (hzero : (s.point i).wakesReader = 0) :
    Progress (writeByte i total c rest s) := by
  refine Progress.change (h.queues.move rfl rfl rfl ha rfl True.intro) rfl ?_ ?_
  · intro hrq
    obtain ⟨hle, hopen⟩ := h.readers hrq
    rw [hzero]
    exact ⟨succ_le_succ hle, hopen⟩
  · intro hwq
    exact ⟨Or.inl (succ_pos _), (h.writers hwq).2⟩

theorem Progress.writeSection (hpoint : s.point i = .writeTop total (c :: rest)) :
    Progress (writeSection i total c rest s) := by
  have ha : (s.point i).asleep = false := by rw [hpoint]; rfl
  have hzero : (s.point i).wakesReader = 0 := by rw [hpoint]; rfl
  unfold Pipe.writeSection
  split
  next hfull =>
    split
    · exact h.move ha rfl True.intro (fun _ => by rw [hpoint]; rfl) (fun _ => by rw [hpoint]; rfl)
    next hopen =>
      refine Progress.change (h.queues.sleepWrite ha (by simp)) rfl ?_ ?_
      · intro hrq
        rw [hzero]
        exact h.readers hrq
      · intro _
        refine ⟨Or.inl ?_, pos_of_ne_zero hopen⟩
        change 0 < s.pipe.count
        rw [hfull]
        decide
  · exact h.writeByte ha hzero

theorem Progress.writeResume (hpoint : s.point i = .writeWoken total (c :: rest)) :
    Progress (writeResume i total c rest s) := by
  have ha : (s.point i).asleep = false := by rw [hpoint]; rfl
  unfold Pipe.writeResume
  split
  next hfull =>
    refine h.move ha rfl True.intro (fun _ => by rw [hpoint]; rfl) ?_
    intro hwq
    have hopen := (h.writers hwq).2
    omega
  · exact h.writeByte ha (by rw [hpoint]; rfl)

/-! ## Wakeups -/

theorem Progress.handOver {j : ι} {p : Pipe ι} (hqueues : Queues (wake j { s with pipe := p }))
    (hp : p.count = s.pipe.count ∧ p.nreaders = s.pipe.nreaders ∧ p.nwriters = s.pipe.nwriters)
    (hrq : p.rq ≠ [] → s.pipe.rq ≠ []) (hwq : p.wq ≠ [] → s.pipe.wq ≠ [])
    (hasleep : (s.point j).asleep = true) (ha : (s.point i).asleep = false)
    (hreader : (s.point i).wakesReader = (s.point j).wake.wakesReader)
    (hwriter : (s.point i).wakesWriter = (s.point j).wake.wakesWriter)
    (ha' : pt.asleep = false) (hvalid : pt.Valid) :
    Progress (goto i pt (wake j { s with pipe := p })) := by
  obtain ⟨hcount, hreaders, hwriters⟩ := hp
  have hi : (wake j { s with pipe := p }).point i = s.point i := by
    refine update_of_ne ?_ _ _
    rintro rfl
    rw [ha] at hasleep
    cases hasleep
  obtain ⟨hzero, hzero'⟩ := Point.wakes_of_asleep hasleep
  have hread : towardsReader (wake j { s with pipe := p }) + _ = towardsReader s + _ :=
    sum_update Point.wakesReader s.point j (s.point j).wake
  have hwrite : towardsWriter (wake j { s with pipe := p }) + _ = towardsWriter s + _ :=
    sum_update Point.wakesWriter s.point j (s.point j).wake
  refine Progress.change (hqueues.move rfl rfl rfl (by rw [hi]; exact ha) ha' hvalid) rfl ?_ ?_
  · intro hne
    obtain ⟨hle, hopen⟩ := h.readers (hrq hne)
    change p.count + _ ≤ _ ∧ 0 < p.nwriters
    rw [hi]
    omega
  · intro hne
    obtain ⟨hor, hopen⟩ := h.writers (hwq hne)
    change (0 < p.count ∨ _) ∧ 0 < p.nreaders
    rw [hi]
    omega

theorem Progress.wakeReader (hpoint : s.point i = .writeDone total rest) (ha : pt.asleep = false)
    (hvalid : pt.Valid) : Progress (goto i pt (wakeupOneReader s)) := by
  cases hrq : s.pipe.rq with
  | nil =>
    rw [wakeupOneReader_nil hrq]
    refine h.move (by rw [hpoint]; rfl) ha hvalid (fun hne => absurd hrq hne) ?_
    intro _
    rw [hpoint]
    exact zero_le _
  | cons j l =>
    rw [wakeupOneReader_cons hrq]
    obtain ⟨count, hj, -⟩ := h.queues.readAsleep (i := j) (by simp [hrq])
    exact h.handOver (h.queues.wakeReader hrq) ⟨rfl, rfl, rfl⟩ (fun _ => by simp [hrq]) id
      (by rw [hj]; rfl) (by rw [hpoint]; rfl) (by rw [hpoint, hj]; rfl)
        (by rw [hpoint, hj]; rfl) ha hvalid

theorem Progress.wakeWriter {bytes : List Byte} (hpoint : s.point i = .readDone bytes)
    (ha : pt.asleep = false) (hvalid : pt.Valid) : Progress (goto i pt (wakeupOneWriter s)) := by
  cases hwq : s.pipe.wq with
  | nil =>
    rw [wakeupOneWriter_nil hwq]
    refine h.move (by rw [hpoint]; rfl) ha hvalid ?_ (fun hne => absurd hwq hne)
    intro _
    rw [hpoint]
    exact zero_le _
  | cons j l =>
    rw [wakeupOneWriter_cons hwq]
    obtain ⟨total, rest, hj, -⟩ := h.queues.writeAsleep (i := j) (by simp [hwq])
    exact h.handOver (h.queues.wakeWriter hwq) ⟨rfl, rfl, rfl⟩ id (fun _ => by simp [hwq])
      (by rw [hj]; rfl) (by rw [hpoint]; rfl) (by rw [hpoint, hj]; rfl)
        (by rw [hpoint, hj]; rfl) ha hvalid

theorem Progress.advance : Progress (advance i s) := by
  have hvalid := h.queues.valid i
  unfold Pipe.advance
  split
  · exact h
  · exact h
  · exact h
  next count hpoint => exact h.readSection (Or.inl hpoint)
  next count hpoint => exact h.readSection (Or.inr hpoint)
  next bytes hpoint => exact h.wakeWriter hpoint rfl True.intro
  next total hpoint =>
    rw [hpoint] at hvalid
    exact absurd rfl hvalid
  next total hpoint =>
    rw [hpoint] at hvalid
    exact absurd rfl hvalid
  next total c rest hpoint => exact h.writeSection hpoint
  next total c rest hpoint => exact h.writeResume hpoint
  next total rest hpoint =>
    split
    · exact h.wakeReader hpoint rfl True.intro
    next hrest => exact h.wakeReader hpoint rfl hrest

end

/-- Waking the processes on a queue keeps what waking the first one keeps. -/
theorem wakeAll_keep {q : List ι → State ι → State ι} {f : Point → ℕ}
    (hq : ∀ l s, (∀ i, wake i (q l s) = q l (wake i s)) ∧ (q l s).point = s.point)
    (hwake : ∀ i l s, Queues (q (i :: l) s) →
      Queues (wake i (q l s)) ∧ f (s.point i).wake = f (s.point i))
    (l : List ι) (s : State ι) (h : Queues (q l s)) :
    Queues (wakeAll l (q [] s)) ∧ ∑ j, f ((wakeAll l (q [] s)).point j) = ∑ j, f (s.point j) := by
  induction l generalizing s with
  | nil => exact ⟨h, by rw [wakeAll, List.foldl_nil, (hq [] s).2]⟩
  | cons i l ih =>
    obtain ⟨hqueues, hsame⟩ := hwake i l s h
    rw [(hq l s).1] at hqueues
    obtain ⟨hall, hsum⟩ := ih _ hqueues
    have hone := sum_update f s.point i (s.point i).wake
    rw [wakeAll, List.foldl_cons, (hq [] s).1]
    exact ⟨hall, hsum.trans (Nat.add_right_cancel (hone.trans (congrArg _ hsame)))⟩

omit [DecidableEq ι] in
theorem Progress.freeIfUnused (h : Progress s) : Progress (freeIfUnused s) :=
  ⟨⟨h.queues.rq, h.queues.wq, h.queues.valid⟩, h.readers, h.writers⟩

theorem Progress.releaseWriter (h : Progress s) : Progress (releaseWriter s) := by
  obtain ⟨hqueues, hsum⟩ := wakeAll_keep (q := fun l s => { s with pipe := { s.pipe with rq := l } })
    (f := Point.wakesWriter) (fun _ _ => ⟨fun _ => rfl, rfl⟩) (fun i l s hs => by
      obtain ⟨count, hi, -⟩ := hs.readAsleep (i := i) (by simp)
      exact ⟨hs.wakeReader rfl, by rw [show s.point i = _ from hi]; rfl⟩) s.pipe.rq
    { s with pipe := { s.pipe with nwriters := s.pipe.nwriters - 1 } }
    ⟨h.queues.rq, h.queues.wq, h.queues.valid⟩
  apply Progress.freeIfUnused
  unfold wakeupAllReaders
  refine ⟨hqueues, ?_, ?_⟩
  · intro hrq
    simp at hrq
  · intro hwq
    rw [wakeAll_pipe] at hwq
    rw [wakeAll_pipe, towardsWriter, hsum]
    exact h.writers hwq

theorem Progress.releaseReader (h : Progress s) : Progress (releaseReader s) := by
  obtain ⟨hqueues, hsum⟩ := wakeAll_keep (q := fun l s => { s with pipe := { s.pipe with wq := l } })
    (f := Point.wakesReader) (fun _ _ => ⟨fun _ => rfl, rfl⟩) (fun i l s hs => by
      obtain ⟨total, rest, hi, -⟩ := hs.writeAsleep (i := i) (by simp)
      exact ⟨hs.wakeWriter rfl, by rw [show s.point i = _ from hi]; rfl⟩) s.pipe.wq
    { s with pipe := { s.pipe with nreaders := s.pipe.nreaders - 1 } }
    ⟨h.queues.rq, h.queues.wq, h.queues.valid⟩
  apply Progress.freeIfUnused
  unfold wakeupAllWriters
  refine ⟨hqueues, ?_, ?_⟩
  · intro hrq
    rw [wakeAll_pipe] at hrq
    rw [wakeAll_pipe, towardsReader, hsum]
    exact h.readers hrq
  · intro hwq
    simp at hwq

/-! ## Runs -/

omit [DecidableEq ι] in
theorem Progress.initial : Progress (initial : State ι) := by
  refine ⟨⟨⟨nodup_nil, ?_⟩, ⟨nodup_nil, ?_⟩, fun _ => True.intro⟩, ?_, ?_⟩
  · intro i
    simp [Pipe.initial, pipeCreate, Point.onReadQueue]
  · intro i
    simp [Pipe.initial, pipeCreate, Point.onWriteQueue]
  · exact fun hne => absurd rfl hne
  · exact fun hne => absurd rfl hne

theorem Progress.call {ret : ℤ} (h : Progress s) (hpoint : s.point i = .out ret)
    (ha : pt.asleep = false) (hvalid : pt.Valid) : Progress (goto i pt s) := by
  refine h.move (by rw [hpoint]; rfl) ha hvalid ?_ ?_
  all_goals
    intro _
    rw [hpoint]
    exact zero_le _

theorem Run.progress {Ok : ι → State ι → Prop} (h : Run Ok s) : Progress s := by
  induction h with
  | create => exact Progress.initial
  | read _ _ hpoint _ ih =>
    unfold readCall
    split
    · exact ih.call hpoint rfl True.intro
    next hcount => exact ih.call hpoint rfl (pos_of_ne_zero hcount)
  | write _ _ hpoint _ ih =>
    unfold writeCall
    split
    · exact ih.call hpoint rfl True.intro
    next hbytes =>
      split
      · exact ih.call hpoint rfl True.intro
      · exact ih.call hpoint rfl hbytes
  | advance _ _ _ ih => exact ih.advance
  | releaseReader _ _ ih => exact ih.releaseReader
  | releaseWriter _ _ ih => exact ih.releaseWriter

/-- With no process on its way to a wakeup, readers and writers do not both sleep, and a
reader sleeps only on an empty buffer with an open write end. Nobody sleeps once the
opposite end is closed. -/
theorem pipe_progress (h : Run (fun _ _ => True) s) :
    ((∀ i, (s.point i).pending = false) → ¬ ∃ i j, i ∈ s.pipe.rq ∧ j ∈ s.pipe.wq) ∧
      ((∀ i, (s.point i).pending = false) → ∀ i ∈ s.pipe.rq,
        s.pipe.count = 0 ∧ 0 < s.pipe.nwriters) ∧
      (s.pipe.nwriters = 0 → ∀ i, i ∉ s.pipe.rq) ∧
      (s.pipe.nreaders = 0 → ∀ i, i ∉ s.pipe.wq) ∧
      (∀ i, i ∈ s.pipe.rq ↔ ∃ count, s.point i = .readAsleep count) ∧
      (∀ i, i ∈ s.pipe.wq ↔ ∃ total rest, s.point i = .writeAsleep total rest) := by
  have hprog := h.progress
  have hempty : (∀ i, (s.point i).pending = false) → ∀ i ∈ s.pipe.rq,
      s.pipe.count = 0 ∧ 0 < s.pipe.nwriters := by
    intro hquiet i hi
    obtain ⟨hle, hopen⟩ := hprog.readers (ne_nil_of_mem hi)
    have hzero : towardsReader s = 0 :=
      sum_eq_zero (fun j _ => Point.wakesReader_eq_zero (hquiet j))
    exact ⟨by omega, hopen⟩
  refine ⟨?_, hempty, ?_, ?_, ?_, ?_⟩
  · rintro hquiet ⟨i, j, hi, hj⟩
    obtain ⟨hor, -⟩ := hprog.writers (ne_nil_of_mem hj)
    have hcount := (hempty hquiet i hi).1
    have hzero : towardsWriter s = 0 :=
      sum_eq_zero (fun k _ => Point.wakesWriter_eq_zero (hquiet k))
    omega
  · intro hclosed i hi
    have hopen := (hprog.readers (ne_nil_of_mem hi)).2
    omega
  · intro hclosed i hi
    have hopen := (hprog.writers (ne_nil_of_mem hi)).2
    omega
  · intro i
    constructor
    · intro hi
      obtain ⟨count, hpoint, -⟩ := hprog.queues.readAsleep hi
      exact ⟨count, hpoint⟩
    · intro ⟨count, hpoint⟩
      rw [hprog.queues.rq.mem, hpoint]
      rfl
  · intro i
    constructor
    · intro hi
      obtain ⟨total, rest, hpoint, -⟩ := hprog.queues.writeAsleep hi
      exact ⟨total, rest, hpoint⟩
    · intro ⟨total, rest, hpoint⟩
      rw [hprog.queues.wq.mem, hpoint]
      rfl

end Counting

/-- Reader `0` sleeps on an empty pipe. -/
theorem pipe_progress_reader : ∃ s : State (Fin 2), Run (fun _ _ => True) s ∧
    0 ∈ s.pipe.rq ∧ s.pipe.count = 0 ∧ 0 < s.pipe.nwriters := by
  have h : Run (fun _ _ => True) (advance 0 (readCall 0 1 (initial : State (Fin 2)))) :=
    .advance (.read .create rfl rfl (by decide)) rfl True.intro
  exact ⟨_, h, by decide, (pipe_progress h).2.1 (by decide) 0 (by decide)⟩

/-! ## Reading what a pipe holds

`sys_read` goes on to `pipe_read` after each full chunk of 512 bytes, and sleeps there when the
pipe has become empty and can still be written to. -/

variable {p : Pipe ι} {env : ℕ → Meanwhile} {len : ℕ}

theorem length_takeBytes (n : ℕ) (p : Pipe ι) : (takeBytes n p).1.length = min n p.count := by
  induction n generalizing p with
  | zero => simp [takeBytes]
  | succ n ih =>
    unfold takeBytes
    by_cases hzero : p.count = 0
    · simp [hzero]
    · simp only [if_neg hzero, length_cons, ih]
      omega

theorem foldl_feed (bytes : List Byte) : ∀ p : Pipe ι,
    p.count ≤ (bytes.foldl feed p).count ∧ (bytes.foldl feed p).nwriters = p.nwriters ∧
      (0 < p.nwriters → p.count + bytes.length ≤ pipeSize →
        (bytes.foldl feed p).count = p.count + bytes.length) := by
  induction bytes with
  | nil => simp
  | cons c bytes ih =>
    intro p
    obtain ⟨hle, hsame, hall⟩ := ih (feed p c)
    have hfeed : p.count ≤ (feed p c).count ∧ (feed p c).nwriters = p.nwriters := by
      unfold feed
      split <;> simp [storeByte]
    refine ⟨hfeed.1.trans hle, hsame.trans hfeed.2, fun hw hroom => ?_⟩
    have hstore : feed p c = storeByte c p := if_pos ⟨by simp at hroom; omega, hw⟩
    rw [length_cons] at hroom ⊢
    rw [foldl_cons, hall (hfeed.2 ▸ hw) (by rw [hstore, storeByte]; dsimp only; omega), hstore]
    dsimp only [storeByte]
    omega

theorem change_count (e : Meanwhile) (p : Pipe ι) : p.count ≤ (e.change p).count ∧
    (e.change p).nwriters ≤ p.nwriters ∧ (e.bytes = [] → (e.change p).count = p.count) := by
  obtain ⟨hle, hsame, -⟩ := foldl_feed e.bytes p
  refine ⟨hle, ?_, fun hnone => ?_⟩
  · change (e.bytes.foldl feed p).nwriters - e.closed ≤ _
    omega
  · change (e.bytes.foldl feed p).count = _
    rw [hnone]
    rfl

/-! ## Rounds -/

theorem sysReadLoop_round {fuel round done : ℕ} (hdone : done < len) :
    sysReadLoop env len (fuel + 1) round done p =
      let p' := (env round).change p
      let n := min (len - done) 512
      if p'.count = 0 then if p'.nwriters = 0 then .returned done else .asleep
      else if p'.count < n then .returned (done + p'.count)
      else sysReadLoop env len fuel (round + 1) (done + n) (takeBytes n p').2 := by
  dsimp only
  rw [sysReadLoop, if_neg hdone.not_ge]
  dsimp only
  generalize (env round).change p = p'
  have hn : min (len - done) 512 ≠ 0 := by omega
  rw [pipeRead, if_neg hn]
  by_cases hzero : p'.count = 0
  · by_cases hw : p'.nwriters = 0 <;> simp [hzero, hw]
  have hpos : 0 < p'.count := by omega
  simp only [if_pos hpos, if_neg hzero, length_takeBytes]
  rw [if_neg (by omega)]
  by_cases hshort : p'.count < min (len - done) 512
  · rw [if_pos hshort, if_pos (by omega), min_eq_right hshort.le]
  · rw [if_neg hshort, if_neg (by omega), min_eq_left (not_lt.mp hshort)]

theorem sysReadLoop_returns (fuel : ℕ) : ∀ round done (p : Pipe ι), done < len →
    len ≤ done + fuel → 512 ∣ done → p.nwriters = 0 ∨ (len - 1) / 512 * 512 < done + p.count →
    ∃ r, sysReadLoop env len fuel round done p = .returned r ∧ r ≤ len ∧
      done + min p.count (len - done) ≤ r ∧
      ((∀ i, (env i).bytes = []) → r = done + min p.count (len - done)) := by
  induction fuel with
  | zero =>
    intro round done p hdone hfuel
    omega
  | succ fuel ih =>
    intro round done p hdone hfuel hdvd hcond
    obtain ⟨hle, hw, hsame⟩ := change_count (env round) p
    rw [sysReadLoop_round hdone]
    dsimp only
    generalize (env round).change p = p' at hle hw hsame ⊢
    by_cases hzero : p'.count = 0
    · have hnone : p'.nwriters = 0 := by omega
      rw [if_pos hzero, if_pos hnone]
      exact ⟨done, rfl, hdone.le, by omega, by omega⟩
    rw [if_neg hzero]
    by_cases hshort : p'.count < min (len - done) 512
    · rw [if_pos hshort]
      refine ⟨_, rfl, by omega, by omega, fun henv => ?_⟩
      have := hsame (henv round)
      omega
    rw [if_neg hshort]
    have hdrained := takeBytes_drained (min (len - done) 512) p'
    have hcount := hdrained.count
    rw [length_takeBytes] at hcount
    by_cases hend : len ≤ done + min (len - done) 512
    · refine ⟨done + min (len - done) 512, ?_, by omega, by omega, fun henv => ?_⟩
      · cases fuel with
        | zero => rfl
        | succ fuel => rw [sysReadLoop, if_pos hend]
      · have := hsame (henv round)
        omega
    · obtain ⟨r, hr, hmax, hmin, hexact⟩ := ih (round + 1) (done + min (len - done) 512)
        (takeBytes (min (len - done) 512) p').2 (by omega) (by omega) (by omega)
        (by rw [hdrained.nwriters]; omega)
      refine ⟨r, hr, hmax, by omega, fun henv => ?_⟩
      have := hsame (henv round)
      have := hexact henv
      omega

theorem sysReadLoop_asleep (j : ℕ) : ∀ fuel round done (p : Pipe ι),
    (∀ i, round < i → env i = ⟨[], 0⟩) → ((env round).change p).count = 512 * j →
    0 < ((env round).change p).nwriters → done + 512 * j < len → j < fuel →
    sysReadLoop env len fuel round done p = .asleep := by
  induction j with
  | zero =>
    intro fuel round done p _ hcount hw hlt hfuel
    obtain ⟨fuel, rfl⟩ := Nat.exists_eq_succ_of_ne_zero hfuel.ne'
    rw [sysReadLoop_round (by omega)]
    simp [hcount, hw.ne']
  | succ j ih =>
    intro fuel round done p henv hcount hw hlt hfuel
    obtain ⟨fuel, rfl⟩ := Nat.exists_eq_succ_of_ne_zero (Nat.ne_zero_of_lt hfuel)
    have hn : min (len - done) 512 = 512 := by omega
    rw [sysReadLoop_round (by omega)]
    dsimp only
    rw [hn, if_neg (by omega), if_neg (by omega)]
    have hdrained := takeBytes_drained 512 ((env round).change p)
    have hleft := hdrained.count
    rw [length_takeBytes] at hleft
    have hnext := henv (round + 1) (by omega)
    refine ih fuel _ _ _ (fun i hi => henv i (by omega)) ?_ ?_ (by omega) (by omega)
    · rw [hnext]
      change (takeBytes 512 ((env round).change p)).2.count = _
      omega
    · rw [hnext]
      change 0 < (takeBytes 512 ((env round).change p)).2.nwriters
      rwa [hdrained.nwriters]

/-- Whatever writers do meanwhile, `sys_read` does not sleep and returns what the pipe holds, as
far as it is asked for, or more when bytes are added. -/
def ReadsAvailable (len : ℕ) (p : Pipe ι) : Prop :=
  ∀ env, ∃ r, sysRead env len p = .returned r ∧ r ≤ len ∧ min p.count len ≤ r ∧
    ((∀ i, (env i).bytes = []) → r = min p.count len)

/-- `sys_read` returns what is available just when nobody can write, or when the pipe holds more
than the chunks before the last one. -/
theorem pipe_reads_available_iff (hcount : 0 < p.count) (hsize : p.count ≤ pipeSize)
    (hlen : 0 < len) :
    ReadsAvailable len p ↔ p.nwriters = 0 ∨ (len - 1) / 512 * 512 < p.count := by
  constructor
  · intro h
    by_contra hnot
    obtain ⟨hw, hshort⟩ := not_or.mp hnot
    -- writers fill the last chunk, so that the pipe is empty behind it
    set j := (p.count + 511) / 512
    set e : Meanwhile := ⟨replicate (512 * j - p.count) 0, 0⟩
    obtain ⟨r, hr, -⟩ := h (fun i => if i = 0 then e else ⟨[], 0⟩)
    obtain ⟨-, hsame, hfill⟩ := foldl_feed e.bytes p
    have hcount' : (e.change p).count = 512 * j := by
      change (e.bytes.foldl feed p).count = _
      have hlength : e.bytes.length = 512 * j - p.count := length_replicate
      rw [hfill (by omega) (by rw [hlength]; dsimp only [pipeSize] at hsize ⊢; omega), hlength]
      omega
    have hw' : 0 < (e.change p).nwriters := by
      change 0 < (e.bytes.foldl feed p).nwriters - 0
      omega
    have hsleep := @sysReadLoop_asleep ι (fun i => if i = 0 then e else ⟨[], 0⟩) len j
      len 0 0 p (fun i hi => if_neg hi.ne') (by simpa using hcount') (by simpa using hw')
      (by omega) (by omega)
    rw [sysRead, if_neg hlen.ne', hsleep] at hr
    cases hr
  · intro hcond env
    obtain ⟨r, hr, hmax, hmin, hexact⟩ := @sysReadLoop_returns ι env len len 0 0 p hlen
      (by omega) (by omega) (by simpa using hcond)
    rw [sysRead, if_neg hlen.ne']
    exact ⟨r, hr, hmax, by simpa using hmin, by simpa using hexact⟩

/-- A pipe with one byte, read with a small buffer. -/
theorem pipe_reads_available_byte :
    ReadsAvailable 512 (storeByte 7 (pipeCreate : Pipe ℕ)) :=
  (pipe_reads_available_iff (by decide) (by decide) (by decide)).mpr (Or.inr (by decide))

/-- A pipe with 512 bytes, of which a reader asks for more: it sleeps. -/
theorem pipe_read_sleeps : ∃ p : Pipe ℕ, p.count = 512 ∧ p.nwriters = 1 ∧
    sysRead (fun _ => ⟨[], 0⟩) 1024 p = .asleep ∧ ¬ ReadsAvailable 1024 p := by
  set p : Pipe ℕ := { pipeCreate with count := 512, wr := 512 }
  have hsleep : sysRead (fun _ => ⟨[], 0⟩) 1024 p = .asleep := by
    rw [sysRead, if_neg (by decide)]
    exact sysReadLoop_asleep 1 _ 0 0 p (fun _ _ => rfl) rfl (by decide) (by decide) (by decide)
  refine ⟨p, rfl, rfl, hsleep, fun h => ?_⟩
  obtain ⟨r, hr, -⟩ := h (fun _ => ⟨[], 0⟩)
  cases hsleep.symm.trans hr

end NoobKernel.Pipe
