import NoobKernel.Model.Evict
import NoobKernel.Verification.Ext4.Holes

/-! # Eviction of inodes

A call that changes an inode marks it, but no inode is written to the table. -/

namespace NoobKernel.Evict

open Ext4 Function Library Outcome

variable {sbi : SbInfo} {s s' : State} {ino : ℕ} {c : CoreInode} {fs : Fs} {inode : Inode}

/-- The inode that is read after the last `inode_put` is the one that was there. -/
def Survives (call : Call) (s : State) : Prop :=
  match call with
  | .put ino => ∀ c, s.core ino = some c → c.refcnt = 1 → readInode (s.table ino) = c
  | _ => True

/-- The last reference is given back to an inode that is not marked and whose two link counts are
equal: `ext4_mkdir` gives a new directory `i_nlink` 2 and `i_links_count` 1. -/
def Clean (call : Call) (s : State) : Prop :=
  match call with
  | .put ino => ∀ c, s.core ino = some c → c.refcnt = 1 → c.dirty = false ∧ c.nlink = c.linksCount
  | _ => True

/-! ## Calls that fail change no inode -/

theorem blockForWrite_fails {raw raw' : RawInode} {lb : ℕ} {fs' : Fs}
    (h : blockForWrite sbi raw lb fs = (none, raw', fs')) : raw' = raw := by
  grind [blockForWrite, setIndirectBlockEntry]

theorem writeLoop_pos (fuel : ℕ) : ∀ p src total raw fs, 0 < total →
    0 < (writeLoop sbi fuel p src total raw fs).1 := by
  induction fuel with
  | zero => simp [writeLoop]
  | succ fuel ih =>
    grind [writeLoop]

theorem writeFile_fails {p : ℕ} {src : List UInt8} (h : ¬ 0 < (writeFile sbi inode p src fs).1) :
    (writeFile sbi inode p src fs).2.1 = inode := by
  have hloop : ¬ 0 < (writeLoop sbi src.length p src 0 inode.raw fs).1 := by
    simp only [writeFile] at h
    split_ifs at h <;> exact h
  suffices hraw : (writeLoop sbi src.length p src 0 inode.raw fs).2.2.1 = inode.raw by
    unfold writeFile
    rw [if_neg (fun hpos => hloop hpos.1), hraw]
  cases src with
  | nil => rfl
  | cons b src =>
    rw [List.length_cons, writeLoop, if_neg (List.cons_ne_nil b src)] at hloop ⊢
    split at hloop
    next heq => exact blockForWrite_fails heq
    refine absurd (writeLoop_pos _ _ _ _ _ _ ?_) hloop
    have hoff := Nat.mod_lt p sbi.blockSize_pos
    simp only [List.length_cons]
    omega

theorem addDirEntry_fails {dir : Inode} {name : List UInt8} {fileType : ℕ}
    (h : (addDirEntry sbi dir ino name fileType fs).1 ≠ 0) :
    (addDirEntry sbi dir ino name fileType fs).2.1 = dir := by
  grind [addDirEntry, addBehind, addBlock, addFirst]

/-! ## Inodes that are not marked -/

/-- An inode that is not marked is the one on disk, apart from `i_nlink`. -/
def Matches (d : DiskInode) (c : CoreInode) : Prop :=
  c.dirty = false → (readInode d).inode = c.inode ∧ d.linksCount = c.linksCount

def Stored (s : State) : Prop := ∀ ino c, s.core ino = some c → Matches (s.table ino) c

theorem Stored.setCore {x : Option CoreInode} (h : Stored s)
    (hx : ∀ c, x = some c → Matches (s.table ino) c) : Stored (setCore ino x s) := by
  intro i c hc
  by_cases hi : i = ino
  · subst hi
    exact hx c (by simpa [Evict.setCore] using hc)
  · exact h i c (by simpa [Evict.setCore, hi] using hc)

theorem Stored.map {f : CoreInode → CoreInode} (h : Stored s)
    (hf : ∀ d c, Matches d c → Matches d (f c)) :
    Stored (Evict.setCore ino ((s.core ino).map f) s) := by
  refine h.setCore ?_
  intro c hc
  obtain ⟨c', hc', rfl⟩ := Option.map_eq_some_iff.mp hc
  exact hf _ _ (h ino c' hc')

theorem Stored.get (h : Stored s) (hget : inodeGet ino s = .ok s') : Stored s' := by
  unfold inodeGet at hget
  split at hget
  · cases hget
  split at hget
  next c hc =>
    cases hget
    exact h.setCore (by rintro _ ⟨⟩; exact h ino c hc)
  · cases hget
    exact h.setCore (by rintro _ ⟨⟩ _; exact ⟨rfl, rfl⟩)

theorem Stored.put (h : Stored s) (ino : ℕ) : Stored (inodePut ino s) := by
  unfold inodePut
  split
  · exact h
  next c hc =>
    split
    · exact h.setCore nofun
    · exact h.setCore (by rintro _ ⟨⟩; exact h ino c hc)

theorem Matches.store {d : DiskInode} {mark : Bool} (h : Matches d c)
    (hsame : mark = false → inode = c.inode) : Matches d (c.store inode mark) := by
  intro hdirty
  obtain ⟨hold, hmark⟩ := Bool.or_eq_false_iff.mp hdirty
  exact ⟨(h hold).1.trans (hsame hmark).symm, (h hold).2⟩

theorem Stored.write (h : Stored s) (ino pos : ℕ) (src : List UInt8) :
    Stored (write sbi ino pos src s) := by
  unfold Evict.write
  split
  · exact h
  next c hc =>
    refine Stored.setCore (s := { s with fs := _ }) h ?_
    rintro _ ⟨⟩
    exact (h ino c hc).store (fun hmark => writeFile_fails (of_decide_eq_false hmark))

theorem Stored.addEntry (h : Stored s) (dir ino : ℕ) (name : List UInt8) (fileType : ℕ) :
    Stored (addEntry sbi dir ino name fileType s).2 := by
  unfold Evict.addEntry
  split
  · exact h
  next c hc =>
    refine Stored.setCore (s := { s with fs := _ }) h ?_
    rintro _ ⟨⟩
    exact (h dir c hc).store (fun hmark => addDirEntry_fails (of_decide_eq_false hmark))

theorem Stored.mkdir {dir : ℕ} {name : List UInt8} (h : Stored s)
    (hmkdir : mkdir sbi dir ino name s = .ok s') : Stored s' := by
  unfold Evict.mkdir at hmkdir
  split at hmkdir
  · cases hmkdir
    exact h
  next hnew =>
  dsimp only at hmkdir
  split at hmkdir
  · cases hmkdir
    exact h
  -- the inode that is written to the table is not in memory
  have htable : ∀ d fs, Stored { s with table := update s.table ino d, fs } := by
    intro d fs i c hc
    have hi : i ≠ ino := by
      rintro rfl
      exact hnew (Or.inr (by rw [show s.core i = some c from hc]; rfl))
    simpa [hi] using h i c hc
  have hadd : ∀ d fs, Stored (Evict.addEntry sbi dir ino name ftDir
      { s with table := update s.table ino d, fs }).2 := fun d fs => (htable d fs).addEntry _ _ _ _
  split at hmkdir
  · cases hmkdir
    exact hadd _ _
  obtain ⟨s1, hget, hs'⟩ := bind_eq_ok.mp hmkdir
  cases hs'
  refine (((hadd _ _).map ?_).get hget).map ?_
  · intro d c _ hdirty
    cases hdirty
  · exact fun d c hc => hc

theorem Run.stored {Ok : Call → State → Prop} (h : Run sbi Ok s) : Stored s := by
  induction h with
  | mount => nofun
  | step call _ _ hstep ih =>
    cases call with
    | get ino => exact ih.get hstep
    | mkdir dir ino name => exact ih.mkdir hstep
    | put ino =>
      cases hstep
      exact ih.put ino
    | write ino pos src =>
      cases hstep
      exact ih.write ino pos src
    | addEntry dir ino name fileType =>
      cases hstep
      exact ih.addEntry dir ino name fileType

/-- An inode survives the loss of its last reference iff it has not been changed. -/
theorem metadata_survives_iff (h : Run sbi Clean s) (call : Call) :
    Survives call s ↔ Clean call s := by
  cases call with
  | put ino =>
    refine forall_congr' fun c => forall_congr' fun hc => forall_congr' fun href => ?_
    constructor
    · rintro rfl
      exact ⟨rfl, rfl⟩
    · rintro ⟨hdirty, hlinks⟩
      obtain ⟨hinode, hcount⟩ := h.stored ino c hc hdirty
      cases c
      simp_all [readInode]
  | _ => rfl

def oneByte : DiskInode := ⟨⟨1, 0, update (fun _ => 0) 0 5⟩, 1⟩

def mounted : State := ⟨fun _ => oneByte, fun _ => none, fun _ => false, ⟨[], fun _ => 0⟩⟩

def opened : State := setCore 12 (some (readInode oneByte)) mounted

theorem metadata_survives_unchanged : ∃ s c, Run smallFs Clean s ∧ s.core 12 = some c ∧
    c.refcnt = 1 ∧ readInode (s.table 12) = c := by
  have hrun : Run smallFs Clean opened := .step (.get 12) (.mount _ _) trivial rfl
  have hclean : Clean (.put 12) opened := by
    rintro _ ⟨⟩ _
    exact ⟨rfl, rfl⟩
  exact ⟨_, _, hrun, rfl, rfl, (metadata_survives_iff hrun (.put 12)).mpr hclean _ rfl rfl⟩

/-- A byte is appended, and the file has its old size when it is read again. -/
theorem appended_byte_lost : ∃ s s' c, Run smallFs (fun _ _ => True) s ∧ s.core 12 = some c ∧
    c.refcnt = 1 ∧ c.dirty = true ∧ c.inode.iSize = 2 ∧
    step smallFs s (.put 12) = .ok s' ∧ s'.core 12 = none ∧
    (readInode (s'.table 12)).inode.iSize = 1 ∧ ¬ Survives (.put 12) s := by
  have hrun : Run smallFs (fun _ _ => True) (write smallFs 12 1 [7] opened) :=
    .step (.write 12 1 [7]) (.step (.get 12) (.mount _ _) trivial rfl) trivial rfl
  refine ⟨_, _, _, hrun, rfl, rfl, rfl, rfl, rfl, rfl, rfl, ?_⟩
  intro hsurvives
  have hsize := congrArg (fun c => c.inode.iSize) (hsurvives _ rfl rfl)
  exact absurd hsize (by decide)

end NoobKernel.Evict
