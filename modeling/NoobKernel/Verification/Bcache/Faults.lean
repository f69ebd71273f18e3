import NoobKernel.Model.Bcache

/-! # Transfers that fail

`bread` and `bwrite` ignore the result of a transfer: the buffer is valid and clean afterwards, and the
caller is told that all is well. -/

namespace NoobKernel.BlockCache

variable {fault : Fault} {dev : ℤ} {s s' : State} {r : ℤ}

def transfers (s s' : State) : List Transfer := s'.log.take (s'.log.length - s.log.length)

/-- What is to happen when transfers of a call fail. A buffer that is not valid is read again by the
next `bread`. -/
structure Reported (r : ℤ) (s s' : State) : Prop where
  told : ∀ t ∈ transfers s s', t.failed = true → r < 0
  read : ∀ t ∈ transfers s s', t.failed = true → t.write = false →
    ∀ b, bcacheLookup t.key s' = some b → (s'.buf b).valid = false
  write : ∀ t ∈ transfers s s', t.failed = true → t.write = true →
    ∀ b, bcacheLookup t.key s' = some b → (s'.buf b).dirty = true ∨ (s'.buf b).data = s'.disk t.key

/-- The device does what the call asks for. -/
def Faultless (s s' : State) : Prop := ∀ t ∈ transfers s s', t.failed = false

theorem reported_zero_iff : Reported 0 s s' ↔ Faultless s s' := by
  constructor
  · intro h t ht
    by_contra hfailed
    exact absurd (h.told t ht (by simpa using hfailed)) (lt_irrefl 0)
  · intro h
    have hnever : ∀ t ∈ transfers s s', t.failed ≠ true := fun t ht => by simp [h t ht]
    exact ⟨fun t ht hf => absurd hf (hnever t ht), fun t ht hf => absurd hf (hnever t ht),
      fun t ht hf => absurd hf (hnever t ht)⟩

/-! ## The transfers of a call

Which transfers a call makes depends neither on the bytes nor on the results of the transfers. -/

/-- The transfers that are logged after `l` fail as `fault` says. -/
inductive Logged (fault : Fault) (l : List Transfer) : List Transfer → Prop
  | refl : Logged fault l l
  | cons {l' : List Transfer} {t : Transfer} : Logged fault l l' →
      t.failed = (fault l'.length).isSome → Logged fault l (t :: l')

theorem Logged.trans {l l' l'' : List Transfer} (h : Logged fault l l') (h' : Logged fault l' l'') :
    Logged fault l l'' := by
  induction h' with
  | refl => exact h
  | cons _ ht ih => exact .cons ih ht

theorem Logged.faultless_iff {l l' : List Transfer} (h : Logged fault l l') :
    l.length ≤ l'.length ∧ ((∀ t ∈ l'.take (l'.length - l.length), t.failed = false) ↔
      ∀ i, l.length ≤ i → i < l'.length → fault i = none) := by
  induction h with
  | refl => exact ⟨le_rfl, by simp; omega⟩
  | @cons l' t _ ht ih =>
    refine ⟨by simp; omega, ?_⟩
    rw [List.length_cons, Nat.succ_sub ih.1, List.take_succ_cons, List.forall_mem_cons, ih.2, ht]
    simp only [Option.isSome_eq_false_iff, Option.isNone_iff_eq_none, Nat.lt_succ_iff_lt_or_eq]
    grind

abbrev noFault : Fault := fun _ => none

/-- What the code looks at: a cache without the bytes and without the results of transfers. -/
def blind (s : State) : State where
  buf b := { s.buf b with data := [] }
  hashTable := s.hashTable
  lruList := s.lruList
  disk _ := []
  log := s.log.map fun t => { t with failed := false }

section Blind

variable {b b' : ℕ} {key : Key}

theorem blind_setBuf {f : Buf → Buf} (hf : ∀ x, { f x with data := [] } = f { x with data := [] }) :
    blind (s.setBuf b f) = (blind s).setBuf b f := by
  simp only [blind, State.setBuf, State.mk.injEq, and_true]
  funext b'
  by_cases hb : b' = b
  · subst hb
    simp [hf]
  · simp [hb]

theorem blind_unhash : blind (unhash b s) = unhash b (blind s) :=
  blind_setBuf fun _ => rfl

theorem blind_blkWrite : blind (blkWrite fault b s) = blkWrite noFault b (blind s) := by
  simp [blind, blkWrite]

theorem blind_blkRead : blind (blkRead fault key b s) = blkRead noFault key b (blind s) := by
  simp only [blind, blkRead, State.setBuf, State.mk.injEq]
  refine ⟨?_, trivial, trivial, trivial, rfl⟩
  funext b'
  by_cases hb : b' = b <;> simp [hb]

theorem blind_bwrite : blind (bwrite fault b s) = bwrite noFault b (blind s) := by
  unfold bwrite
  rw [show ((blind s).buf b).valid = (s.buf b).valid from rfl]
  split
  · rw [blind_setBuf fun _ => rfl, blind_blkWrite, blind_setBuf fun _ => rfl]
  · rfl

theorem blind_brelse : blind (brelse b s) = brelse b (blind s) := by
  unfold brelse
  rw [← blind_setBuf fun _ => rfl]
  dsimp only
  split
  next href => exact (if_pos href).symm
  next href => exact (if_neg href).symm

theorem blind_patch {f : List UInt8 → List UInt8} :
    blind (s.setBuf b fun buf => { buf with data := f buf.data }) = blind s := by
  simp only [blind, State.setBuf, State.mk.injEq, and_true]
  funext b'
  by_cases hb : b' = b <;> simp [hb]

theorem brelse_log : (brelse b s).log = s.log := by
  unfold brelse
  dsimp only
  split <;> rfl

theorem bwrite_logged : Logged fault s.log (bwrite fault b s).log := by
  unfold bwrite
  split
  · exact .cons .refl rfl
  · exact .refl

theorem acquire_blind (h : acquire b s = some (b', s')) :
    acquire b (blind s) = some (b', blind s') ∧ s'.log = s.log := by
  unfold acquire at h ⊢
  rw [show ((blind s).buf b).lock = (s.buf b).lock from rfl]
  split at h
  · cases h
  next hfree =>
    cases h
    rw [if_neg hfree, blind_setBuf fun _ => rfl]
    exact ⟨rfl, rfl⟩

theorem evict_blind (h : bcacheEvict fault s = some (b, s')) :
    bcacheEvict noFault (blind s) = some (b, blind s') ∧ Logged fault s.log s'.log := by
  have hfind : (blind s).unused.find? (fun b => !((blind s).buf b).dirty) =
      s.unused.find? (fun b => !(s.buf b).dirty) := rfl
  unfold bcacheEvict at h ⊢
  rw [hfind, show (blind s).unused = s.unused from rfl]
  split at h
  · cases h
    rw [blind_unhash]
    exact ⟨rfl, .refl⟩
  split at h
  · cases h
  · cases h
    rw [blind_setBuf fun _ => rfl, blind_blkWrite, blind_unhash]
    exact ⟨rfl, .cons .refl rfl⟩

theorem get_blind (h : bcacheGet fault key s = some (b, s')) :
    bcacheGet noFault key (blind s) = some (b, blind s') ∧ Logged fault s.log s'.log := by
  unfold bcacheGet at h ⊢
  rw [show bcacheLookup key (blind s) = bcacheLookup key s from rfl]
  split at h
  · obtain ⟨hblind, hlog⟩ := acquire_blind h
    rw [hlog, ← hblind, blind_setBuf fun _ => rfl]
    exact ⟨rfl, .refl⟩
  split at h
  · cases h
  next b1 s1 hevict =>
    obtain ⟨hevict', hlogged⟩ := evict_blind hevict
    obtain ⟨hblind, hlog⟩ := acquire_blind h
    rw [hlog, ← hblind, hevict', blind_setBuf fun _ => rfl]
    exact ⟨rfl, hlogged⟩

theorem bread_blind (h : bread fault key s = some (b, s')) :
    bread noFault key (blind s) = some (b, blind s') ∧ Logged fault s.log s'.log := by
  unfold bread at h ⊢
  split at h
  · cases h
  next b1 s1 hget =>
    obtain ⟨hget', hlogged⟩ := get_blind hget
    rw [hget']
    dsimp only
    rw [show ((blind s1).buf b1).valid = (s1.buf b1).valid from rfl]
    split at h
    next hvalid =>
      cases h
      exact ⟨if_pos hvalid, hlogged⟩
    next hvalid =>
      cases h
      rw [if_neg hvalid, blind_setBuf fun _ => rfl, blind_blkRead]
      exact ⟨rfl, hlogged.cons rfl⟩

end Blind

/-- The blocks of a read or a write one after the other, on a device that does not fail. -/
def touch (write : Bool) (dev : ℤ) : ℕ → ℕ → ℕ → State → Option State
  | 0, _, _, s => some s
  | fuel + 1, offset, size, s =>
    if size = 0 then some s
    else
      let n := min (blockSize - offset % blockSize) size
      match bread noFault ⟨dev, offset / blockSize⟩ s with
      | none => none
      | some (b, s) =>
        touch write dev fuel ((offset + n) % 2 ^ 64) (size - n)
          (brelse b (if write then bwrite noFault b s else s))

theorem readAtLoop_touch {fuel offset size : ℕ} {p p' : List UInt8}
    (h : readAtLoop fault dev fuel offset size p s = some (r, p', s')) :
    r = 0 ∧ touch false dev fuel offset size (blind s) = some (blind s') ∧
      Logged fault s.log s'.log := by
  induction fuel generalizing offset size p s with
  | zero =>
    cases h
    exact ⟨rfl, rfl, .refl⟩
  | succ fuel ih =>
    unfold readAtLoop at h
    unfold touch
    split at h
    next hsize =>
      cases h
      exact ⟨rfl, if_pos hsize, .refl⟩
    dsimp only at h
    split at h
    · cases h
    next hsize _ b s1 hbread =>
      obtain ⟨hbread', hlogged⟩ := bread_blind hbread
      obtain ⟨hr, htouch, hrest⟩ := ih h
      rw [blind_brelse] at htouch
      rw [brelse_log] at hrest
      rw [if_neg hsize, hbread']
      exact ⟨hr, htouch, hlogged.trans hrest⟩

theorem writeAtLoop_touch {fuel offset : ℕ} {p : List UInt8}
    (h : writeAtLoop fault dev fuel offset p s = some (r, s')) :
    r = 0 ∧ touch true dev fuel offset p.length (blind s) = some (blind s') ∧
      Logged fault s.log s'.log := by
  induction fuel generalizing offset p s with
  | zero =>
    cases h
    exact ⟨rfl, rfl, .refl⟩
  | succ fuel ih =>
    unfold writeAtLoop at h
    unfold touch
    split at h
    next hlen =>
      cases h
      exact ⟨rfl, if_pos hlen, .refl⟩
    dsimp only at h
    split at h
    · cases h
    next hlen _ b s1 hbread =>
      obtain ⟨hbread', hlogged⟩ := bread_blind hbread
      obtain ⟨hr, htouch, hrest⟩ := ih h
      rw [blind_brelse, blind_bwrite, blind_patch, List.length_drop] at htouch
      rw [brelse_log] at hrest
      have hwritten := bwrite_logged.trans hrest
      rw [if_neg hlen, hbread']
      exact ⟨hr, htouch, hlogged.trans hwritten⟩

/-- The device carries out every transfer that the call asks it for. -/
def Reliable (fault : Fault) (write : Bool) (dev : ℤ) (offset size : ℕ) (s : State) : Prop :=
  ∀ s', touch write dev size offset size (blind s) = some s' →
    ∀ i, s.log.length ≤ i → i < s'.log.length → fault i = none

theorem reported_iff {write : Bool} {offset size : ℕ}
    (h : r = 0 ∧ touch write dev size offset size (blind s) = some (blind s') ∧
      Logged fault s.log s'.log) : Reported r s s' ↔ Reliable fault write dev offset size s := by
  obtain ⟨rfl, htouch, hlogged⟩ := h
  rw [reported_zero_iff, Faultless, transfers, hlogged.faultless_iff.2, Reliable, htouch]
  simp [blind]

/-- Failures of transfers are handled exactly when there are none. -/
theorem failures_reported_iff (fault : Fault) (dev : ℤ) (offset : ℕ) :
    (∀ size s r p s', ext4ReadAt fault dev offset size s = some (r, p, s') →
      (Reported r s s' ↔ Reliable fault false dev offset size s)) ∧
    ∀ p s r s', ext4WriteAt fault dev offset p s = some (r, s') →
      (Reported r s s' ↔ Reliable fault true dev offset p.length s) :=
  ⟨fun _ _ _ _ _ h => reported_iff (readAtLoop_touch h),
    fun _ _ _ _ h => reported_iff (writeAtLoop_touch h)⟩

instance (s s' : State) : Decidable (Faultless s s') := inferInstanceAs (Decidable (∀ _ ∈ _, _))

/-- An empty cache for devices on which every block is the same. -/
def blank : State := bcacheInit (fun _ => [5])

/-- The second transfer would fail. -/
theorem failures_reported_iff_read : ∃ p s',
    ext4ReadAt (fun i => if i = 1 then some [9] else none) 0 0 1 blank = some (0, p, s') ∧
    Reported 0 blank s' := by
  have hcount : (touch false 0 1 0 1 (blind blank)).map (fun s' => s'.log.length) = some 1 := by
    decide +kernel
  have hcheck : (ext4ReadAt (fun i => if i = 1 then some [9] else none) 0 0 1 blank).any
      (fun x => x.1 = 0) = true := by decide +kernel
  obtain ⟨⟨r, p, s'⟩, hrun, hr⟩ := (Option.any_eq_true _ _).mp hcheck
  obtain rfl : r = 0 := of_decide_eq_true hr
  refine ⟨p, s', hrun, ((failures_reported_iff _ 0 0).1 1 blank 0 p s' hrun).mpr ?_⟩
  intro s0 hs0 i _ hi
  rw [hs0, Option.map_some, Option.some.injEq] at hcount
  exact if_neg (by omega)

/-- The first read fails. The second one makes no transfer and returns what the first one left. -/
theorem failed_read_served : (ext4ReadAt (fun _ => some [9]) 0 0 1 blank).any (fun x =>
    x.1 = 0 ∧ x.2.1 = [9] ∧ ¬ Faultless blank x.2.2 ∧
    (ext4ReadAt (fun _ => some [9]) 0 0 1 x.2.2).any (fun y =>
      y.1 = 0 ∧ y.2.1 = [9] ∧ y.2.2.log.length = x.2.2.log.length)) = true := by decide +kernel

end NoobKernel.BlockCache
