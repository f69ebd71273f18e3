import NoobKernel.Model.Namespace
import NoobKernel.Verification.Ext4.DirectoryMap
import Mathlib.Data.List.Nodup

/-! # What was created stays reachable

A call of a run is safe when the directories it starts from are where they were found, when it
makes names only through plain paths, and when no entry is taken away from above something else. -/

namespace NoobKernel.Vfs

open Exec (slash dot)
open Library Relation Function List Outcome

variable {fs fs' : Nodes} {s s' : State} {created removed : List ℕ} {base d d' parent : Dentry}
  {path : List ℕ} {pos ino : ℕ} {name last : Name} {es : List (Name × ℕ)} {node : ℕ → Node}
  {e : Name × ℕ}

/-! ## Entries of a directory -/

theorem mem_dirLookup (h : dirLookup name es ≠ 0) : (name, dirLookup name es) ∈ es := by
  unfold dirLookup at *
  cases hfind : es.find? (·.1 = name) with
  | none => simp [hfind] at h
  | some e =>
    have hname : e.1 = name := by simpa using List.find?_some hfind
    have hmem := mem_of_find?_eq_some hfind
    simp only [Option.map_some, Option.getD_some, ← hname]
    exact hmem

/-- No name twice, and no number `0`. -/
structure Names (es : List (Name × ℕ)) : Prop where
  nodup : (es.map Prod.fst).Nodup
  nonzero : ∀ e ∈ es, e.2 ≠ 0

theorem Names.not_mem (hes : Names es) (h : dirLookup name es = 0) : name ∉ es.map Prod.fst := by
  intro hmem
  obtain ⟨e, he, hname⟩ := mem_map.mp hmem
  unfold dirLookup at h
  cases hfind : es.find? (·.1 = name) with
  | none => simpa [hname] using List.find?_eq_none.mp hfind e he
  | some e' =>
    rw [hfind] at h
    exact hes.nonzero e' (mem_of_find?_eq_some hfind) h

theorem addEntry_perm (pos : ℕ) (name : Name) (ino : ℕ) (es : List (Name × ℕ)) :
    (addEntry pos name ino es).Perm ((name, ino) :: es) := by
  have hsplit : (addEntry pos name ino es).Perm ((name, ino) :: (es.take pos ++ es.drop pos)) :=
    perm_middle
  rwa [take_append_drop] at hsplit

@[simp] theorem mem_addEntry : e ∈ addEntry pos name ino es ↔ e = (name, ino) ∨ e ∈ es := by
  rw [(addEntry_perm pos name ino es).mem_iff, mem_cons]

@[simp] theorem mem_without : e ∈ without name es ↔ e ∈ es ∧ e.1 ≠ name := by
  simp [without]

theorem removeEntry_ok {stale : Bool} {es' : List (Name × ℕ)}
    (h : removeEntry stale name es = .ok es') : es' = without name es := by
  unfold removeEntry at h
  split at h
  · exact (Except.ok.inj h).symm
  · cases h

theorem Names.addEntry (pos : ℕ) (hes : Names es) (hnew : name ∉ es.map Prod.fst) (hino : ino ≠ 0) :
    Names (addEntry pos name ino es) where
  nodup := by
    rw [((addEntry_perm pos name ino es).map Prod.fst).nodup_iff]
    exact nodup_cons.mpr ⟨hnew, hes.nodup⟩
  nonzero e he := by
    rcases mem_addEntry.mp he with rfl | he
    · exact hino
    · exact hes.nonzero e he

theorem Names.without (name : Name) (hes : Names es) : Names (without name es) where
  nodup := hes.nodup.sublist (filter_sublist.map Prod.fst)
  nonzero e he := hes.nonzero e (mem_without.mp he).1

theorem Names.ino_unique {a b : ℕ} (hes : Names es) (ha : (name, a) ∈ es) (hb : (name, b) ∈ es) :
    a = b :=
  congrArg Prod.snd (inj_on_of_nodup_map hes.nodup ha hb rfl)

theorem entries_setEntries (p x : ℕ) (f : List (Name × ℕ) → List (Name × ℕ)) (fs : Nodes) :
    entries x (setEntries p f fs) = if x = p then f (entries p fs) else entries x fs := by
  by_cases h : x = p
  · subst h
    simp [setEntries, entries]
  · simp [setEntries, entries, h]

theorem isDir_setEntries {p x : ℕ} {f : List (Name × ℕ) → List (Name × ℕ)}
    (h : isDir x fs = true) : isDir x (setEntries p f fs) = true := by
  by_cases hx : x = p
  · subst hx
    simp [setEntries, isDir]
  · simpa [setEntries, isDir, hx] using h

theorem Names.dirLookup_addEntry (hes : Names es) (habsent : dirLookup name es = 0) (pos : ℕ) :
    dirLookup last (Vfs.addEntry pos name ino es) = if last = name then ino else dirLookup last es := by
  have hnew := hes.not_mem habsent
  have hfront : (es.take pos).find? (·.1 = name) = none := by
    refine List.find?_eq_none.mpr fun e he => ?_
    rw [decide_eq_true_eq]
    rintro rfl
    exact hnew (mem_map_of_mem (mem_of_mem_take he))
  unfold dirLookup Vfs.addEntry
  rw [find?_append]
  by_cases h : last = name
  · subst h
    rw [hfront]
    simp
  · conv_rhs => rw [if_neg h, ← take_append_drop pos es, find?_append]
    rw [find?_cons_of_neg (by simpa using Ne.symm h)]

theorem dirLookup_without : dirLookup last (without name es) =
    if last = name then 0 else dirLookup last es := by
  unfold dirLookup without
  rw [find?_filter]
  split
  next h =>
    rw [List.find?_eq_none.mpr (by simp [h])]
    rfl
  next h =>
    congr 3
    funext e
    grind

/-! ## Directories on the device -/

section Device

variable {sbi : Ext4.SbInfo} {reserved : ℕ → Prop} {dir dir' : Ext4.Inode} {dev dev' : Ext4.Fs}
  {bytes : List UInt8}

abbrev ofBytes (bytes : List UInt8) : Name := bytes.map UInt8.toNat

/-- The names of the directory on the device are those of the entries. -/
def Shows (sbi : Ext4.SbInfo) (dir : Ext4.Inode) (dev : Ext4.Fs) (es : List (Name × ℕ)) : Prop :=
  ∀ bytes, Ext4.ValidName bytes →
    Ext4.dirLookup sbi dir.raw bytes dev.disk = dirLookup (ofBytes bytes) es

theorem ofBytes_inj {bytes' : List UInt8} : ofBytes bytes = ofBytes bytes' ↔ bytes = bytes' :=
  (map_injective_iff.mpr fun _ _ => UInt8.toNat_inj.mp).eq_iff

section

variable (h : Shows sbi dir dev es) (hes : Names es) (hdir : Ext4.WellFormed sbi reserved dir dev)
  (hname : Ext4.ValidName bytes)

include h hes hdir hname

/-- `ext4_add_dir_entry` does to the device what `addEntry` does to the entries. -/
theorem Shows.add {fileType : ℕ} (hentry : Ext4.NewEntry ino bytes fileType)
    (hgrow : Ext4.Growable sbi dir) (habsent : dirLookup (ofBytes bytes) es = 0)
    (hadd : Ext4.addDirEntry sbi dir ino bytes fileType dev = (0, dir', dev')) (pos : ℕ) :
    Shows sbi dir' dev' (addEntry pos (ofBytes bytes) ino es) := by
  intro other hother
  have hright := (hdir.add hname hentry hgrow ((h bytes hname).trans habsent)).lookup other hother
  rw [hadd, if_pos rfl, Ext4.DirOp.update, update_apply, h other hother] at hright
  simp only [hright, hes.dirLookup_addEntry habsent pos, ofBytes_inj]

/-- `ext4_unlink` does to the device what `removeEntry` does to the entries. -/
theorem Shows.unlink (hsize : dir.iSize < 2 ^ 32) :
    ∃ stale r dev', Ext4.unlink sbi dir bytes dev = .ok (r, dev') ∧
      match removeEntry stale (ofBytes bytes) es with
      | .ok es' => r = 0 ∧ Shows sbi dir dev' es'
      | .error e => r = e ∧ dev' = dev := by
  by_cases habsent : dirLookup (ofBytes bytes) es = 0
  · obtain ⟨stale, heq⟩ := hdir.unlink_absent hname hsize ((h bytes hname).trans habsent)
    have hany : es.any (·.1 = ofBytes bytes) = false := by
      have hnew := hes.not_mem habsent
      simp only [mem_map, not_exists, not_and] at hnew
      exact any_eq_false.mpr fun e he => by simpa using hnew e he
    refine ⟨stale, _, dev, heq, ?_⟩
    rw [removeEntry, hany]
    cases stale with
    | false => exact ⟨rfl, rfl⟩
    | true =>
      refine ⟨rfl, fun other hother => ?_⟩
      rw [dirLookup_without, h other hother]
      split
      next hsame => rw [hsame, habsent]
      next => rfl
  · have hthere : Ext4.dirLookup sbi dir.raw bytes dev.disk ≠ 0 := by
      rwa [h bytes hname]
    obtain ⟨dev', heq, hright⟩ := hdir.unlink hname hsize hthere
    have hany : es.any (·.1 = ofBytes bytes) = true :=
      any_eq_true.mpr ⟨_, mem_dirLookup habsent, decide_eq_true rfl⟩
    refine ⟨false, 0, dev', heq, ?_⟩
    rw [removeEntry, hany]
    refine ⟨rfl, fun other hother => ?_⟩
    rw [hright.lookup other hother, if_pos rfl, Ext4.DirOp.update, update_apply, h other hother]
    simp only [dirLookup_without, ofBytes_inj]

end

end Device

/-! ## Trees of names -/

/-- A file system as it is at the boot: its root is a directory, and no directory holds a name
twice or the number `0`. -/
structure WellFormed (fs : Nodes) : Prop where
  root : isDir rootIno fs = true
  nodup : ∀ ino, ((entries ino fs).map Prod.fst).Nodup
  nonzero : ∀ ino, ∀ e ∈ entries ino fs, e.2 ≠ 0

theorem WellFormed.of_names (hroot : isDir rootIno fs = true) (h : ∀ x, Names (entries x fs)) :
    WellFormed fs :=
  ⟨hroot, fun x => (h x).nodup, fun x => (h x).nonzero⟩

theorem WellFormed.names (h : WellFormed fs) (x : ℕ) : Names (entries x fs) :=
  ⟨h.nodup x, h.nonzero x⟩

theorem WellFormed.setEntries {p : ℕ} {f : List (Name × ℕ) → List (Name × ℕ)} (h : WellFormed fs)
    (hf : Names (f (entries p fs))) : WellFormed (setEntries p f fs) := by
  refine .of_names (isDir_setEntries h.root) fun x => ?_
  rw [entries_setEntries]
  split
  · exact hf
  · exact h.names x

def Edge (fs : Nodes) (a b : ℕ) : Prop := ∃ name, (name, b) ∈ entries a fs

/-- Some chain of entries leads from the root to the inode. -/
def Reachable (fs : Nodes) (ino : ℕ) : Prop := ReflTransGen (Edge fs) rootIno ino

/-- A name that walks look up in a directory. -/
def Proper (name : Name) : Prop := name ≠ [dot] ∧ name ≠ [dot, dot]

instance (name : Name) : Decidable (Proper name) := inferInstanceAs (Decidable (_ ∧ _))

/-- A file, or a directory with no more than the entries for itself and its parent. -/
def Leaf (ino : ℕ) (fs : Nodes) : Prop := ∀ e ∈ entries ino fs, ¬ Proper e.1

instance (ino : ℕ) (fs : Nodes) : Decidable (Leaf ino fs) :=
  inferInstanceAs (Decidable (∀ e ∈ entries ino fs, _))

/-- Every dentry on the way up is still what its name stands for in its parent. -/
def Attached (fs : Nodes) : Dentry → Prop
  | .root _ => True
  | .child parent name ino => Attached fs parent ∧ (name, ino) ∈ entries parent.ino fs

def Attached.decide (fs : Nodes) : (d : Dentry) → Decidable (Attached fs d)
  | .root _ => isTrue trivial
  | .child parent _ _ =>
    have := Attached.decide fs parent
    inferInstanceAs (Decidable (_ ∧ _))

instance (fs : Nodes) (d : Dentry) : Decidable (Attached fs d) := Attached.decide fs d

/-- A path with a component, none of which is `.` or `..`. -/
def PlainPath (path : List ℕ) : Prop := components path ≠ [] ∧ ∀ name ∈ components path, Proper name

instance (path : List ℕ) : Decidable (PlainPath path) := inferInstanceAs (Decidable (_ ∧ _))

/-- What a rename must meet: it gives something other than the root a name other than its own, and
what has the new name is a file or an empty directory. -/
def RenameSafe (old parent : Dentry) (last : Name) (fs : Nodes) : Prop :=
  old.parent ≠ old ∧ old.name ≠ last ∧ ∀ e ∈ entries parent.ino fs, e.1 = last → Leaf e.2 fs

/-- What a call must meet, in the state before it. -/
def Call.Safe (c : Call) (s : State) : Prop :=
  match c with
  | .chdir _ _ => True
  | .create base path _ _ => Attached s.fs base ∧ PlainPath path
  | .openCreate base path _ _ => Attached s.fs base ∧ PlainPath path
  | .mkdir base path _ _ => Attached s.fs base ∧ PlainPath path
  | .unlink base _ _ => Attached s.fs base
  | .rmdir base path _ =>
    Attached s.fs base ∧ ∀ d, pathLookup base path s.fs = .ok d → Leaf d.ino s.fs
  | .rename oldBase oldPath newBase newPath _ _ =>
    Attached s.fs oldBase ∧ Attached s.fs newBase ∧ PlainPath newPath ∧
      ∀ old parent last, pathLookup oldBase oldPath s.fs = .ok old →
        pathParent newBase newPath s.fs = .ok (parent, last) → RenameSafe old parent last s.fs

/-! ## Dentries that walks find -/

/-- The dentry hangs below the root by names that walks look up. -/
def Rooted : Dentry → Prop
  | .root ino => ino = rootIno
  | .child parent name _ => Rooted parent ∧ Proper name

section Walks

variable {P : Dentry → Prop} {names : List Name}

theorem lookupSingle_ok (h : lookupSingle d name fs = .ok d') :
    ∃ ino, d' = .child d name ino ∧ (name, ino) ∈ entries d.ino fs := by
  unfold lookupSingle at h
  split at h
  · cases h
  simp only at h
  split at h
  · cases h
  next hino =>
    cases h
    exact ⟨_, rfl, mem_dirLookup hino⟩

/-- What holds of a dentry passes to its parent and to what is looked up in it. -/
structure Inherited (fs : Nodes) (P : Dentry → Prop) : Prop where
  parent : ∀ d, P d → P d.parent
  child : ∀ d name ino, P d → Proper name → (name, ino) ∈ entries d.ino fs → P (.child d name ino)

theorem rooted_inherited (fs : Nodes) : Inherited fs Rooted where
  parent d hd := by
    cases d with
    | root ino => exact hd
    | child parent name ino => exact hd.1
  child _ _ _ hd hname _ := ⟨hd, hname⟩

theorem attached_inherited (fs : Nodes) : Inherited fs (Attached fs) where
  parent d hd := by
    cases d with
    | root ino => trivial
    | child parent name ino => exact hd.1
  child _ _ _ hd _ hmem := ⟨hd, hmem⟩

section

variable (hP : Inherited fs P)

include hP

theorem Inherited.lookupSingle (hd : P d) (hname : Proper name)
    (h : lookupSingle d name fs = .ok d') : P d' := by
  obtain ⟨ino, rfl, hmem⟩ := lookupSingle_ok h
  exact hP.child d name ino hd hname hmem

theorem Inherited.walkName (hd : P d) (h : walkName d name fs = .ok d') : P d' := by
  unfold Vfs.walkName at h
  split at h
  · cases h
    exact hd
  next hdot =>
    split at h
    · cases h
      exact hP.parent d hd
    next hdots => exact hP.lookupSingle hd ⟨hdot, hdots⟩ h

theorem Inherited.pathWalk (hd : P d) (h : pathWalk fs names d = .ok d') : P d' := by
  induction names generalizing d with
  | nil =>
    cases h
    exact hd
  | cons name rest ih =>
    obtain ⟨d1, hwalk, h⟩ := bind_eq_ok.mp h
    split at h
    · cases h
    · exact ih (hP.walkName hd hwalk) h

theorem Inherited.pathLookup (hbase : P base) (h : pathLookup base path fs = .ok d) : P d :=
  hP.pathWalk hbase h

/-- The loop for the parent goes to a dentry of the same kind, if it meets no `.` and no `..`. -/
theorem Inherited.parentLoop (hd : P d) (hnames : names ≠ [])
    (hproper : ∀ name ∈ names, Proper name) (h : parentLoop fs names d = .ok (parent, last)) :
    P parent ∧ Proper last := by
  induction names generalizing d with
  | nil => exact absurd rfl hnames
  | cons name rest ih =>
    cases rest with
    | nil =>
      cases h
      exact ⟨hd, hproper last (by simp)⟩
    | cons next rest =>
      obtain ⟨d1, hlookup, h⟩ := bind_eq_ok.mp h
      have hd1 := hP.lookupSingle hd (hproper name (by simp)) hlookup
      exact ih hd1 (by simp) (fun n hn => hproper n (mem_cons_of_mem _ hn)) h

theorem Inherited.pathParent (hbase : P base) (hpath : PlainPath path)
    (h : pathParent base path fs = .ok (parent, last)) : P parent ∧ Proper last :=
  hP.parentLoop hbase hpath.1 hpath.2 h

end

theorem walkName_proper (d : Dentry) (hname : Proper name) :
    walkName d name fs = lookupSingle d name fs := by
  simp [walkName, hname.1, hname.2]

/-- On plain names, a walk looks the last one up in the directory that the parent loop finds. -/
theorem pathWalk_eq_lookup (hnames : names ≠ []) (hproper : ∀ name ∈ names, Proper name)
    (h : parentLoop fs names d = .ok (parent, last)) (hdir : isDir parent.ino fs = true) :
    pathWalk fs names d = lookupSingle parent last fs := by
  induction names generalizing d with
  | nil => exact absurd rfl hnames
  | cons name rest ih =>
    have hname : walkName d name fs = lookupSingle d name fs :=
      walkName_proper d (hproper name (by simp))
    cases rest with
    | nil =>
      cases h
      simp only [pathWalk, hname, bind, Except.bind]
      cases lookupSingle parent last fs <;> simp
    | cons next rest =>
      obtain ⟨d1, hlookup, h⟩ := bind_eq_ok.mp h
      have hrest := ih (by simp) (fun n hn => hproper n (mem_cons_of_mem _ hn)) h
      have hd1 : isDir d1.ino fs = true := by
        cases rest with
        | nil =>
          cases h
          exact hdir
        | cons _ _ =>
          obtain ⟨d2, hnext, -⟩ := bind_eq_ok.mp h
          by_contra hfile
          rw [lookupSingle, if_pos (by simpa using hfile)] at hnext
          cases hnext
      simp only [pathWalk, hname, hlookup, bind, Except.bind]
      simpa [hd1, pathWalk, bind, Except.bind] using hrest

end Walks

/-! ## Chains of proper names -/

def ProperEdge (fs : Nodes) (a b : ℕ) : Prop := ∃ name, Proper name ∧ (name, b) ∈ entries a fs

/-- Some chain of names that walks look up leads from the root to the inode. -/
def Linked (fs : Nodes) (ino : ℕ) : Prop := ReflTransGen (ProperEdge fs) rootIno ino

theorem Linked.reachable (h : Linked fs ino) : Reachable fs ino := by
  have hedge : ∀ a b, ProperEdge fs a b → Edge fs a b := by
    rintro a b ⟨name, -, hmem⟩
    exact ⟨name, hmem⟩
  exact ReflTransGen.mono hedge _ _ h

theorem linked_of_attached (hrooted : Rooted d) (h : Attached fs d) : Linked fs d.ino := by
  induction d with
  | root ino =>
    cases hrooted
    exact .refl
  | child parent name ino ih => exact (ih hrooted.1 h.1).tail ⟨name, hrooted.2, h.2⟩

/-- When every edge that goes either is replaced or leads to a node with no way on, only such nodes
are lost. -/
theorem reflTransGen_cut {α : Type*} {r s : α → α → Prop} {a b : α} (lost : α → Prop)
    (hedge : ∀ x y, r x y → s x y ∨ lost y) (hlost : ∀ x y, lost x → ¬ r x y)
    (h : ReflTransGen r a b) : ReflTransGen s a b ∨ lost b := by
  induction h with
  | refl => exact .inl .refl
  | tail _ hr ih =>
    rcases ih with ih | ih
    · exact (hedge _ _ hr).imp ih.tail id
    · exact absurd hr (hlost _ _ ih)

theorem Linked.setEntries {p : ℕ} {f : List (Name × ℕ) → List (Name × ℕ)} (lost : ℕ → Prop)
    (hedge : ∀ name b, Proper name → (name, b) ∈ entries p fs →
      (∃ name', Proper name' ∧ (name', b) ∈ f (entries p fs)) ∨ lost b)
    (hleaf : ∀ a, lost a → Leaf a fs) (h : Linked fs ino) :
    Linked (setEntries p f fs) ino ∨ lost ino := by
  refine reflTransGen_cut lost ?_ (fun a b ha ⟨_, hname, hmem⟩ => hleaf a ha _ hmem hname) h
  rintro a b ⟨name, hname, hmem⟩
  unfold ProperEdge
  rw [entries_setEntries]
  split
  next ha => exact hedge name b hname (ha ▸ hmem)
  · exact .inl ⟨name, hname, hmem⟩

theorem Linked.mono (h : Linked fs ino)
    (hentries : ∀ x, ∀ e ∈ entries x fs, e ∈ entries x fs') : Linked fs' ino := by
  have hedge : ∀ a b, ProperEdge fs a b → ProperEdge fs' a b := by
    rintro a b ⟨name, hname, hmem⟩
    exact ⟨name, hname, hentries a _ hmem⟩
  exact ReflTransGen.mono hedge _ _ h

/-! ## Making a file or a directory -/

theorem makeIn_ok (h : makeIn base path pos ino node fs = .ok fs') :
    ∃ parent last, pathParent base path fs = .ok (parent, last) ∧ isDir parent.ino fs = true ∧
      ino ≠ 0 ∧ fs ino = none ∧
      fs' = setEntries parent.ino (addEntry pos last ino)
        (update fs ino (some (node parent.ino))) := by
  obtain ⟨⟨parent, last⟩, hparent, h⟩ := bind_eq_ok.mp h
  dsimp only at h
  split at h
  · cases h
  next hdir =>
    split at h
    · cases h
    next hino =>
      simp only [not_or, not_not] at hino
      cases h
      exact ⟨parent, last, hparent, by simpa using hdir, hino.1, hino.2, rfl⟩

/-- The entries of an inode that has just been made. -/
def Node.entries : Node → List (Name × ℕ)
  | .file => []
  | .dir es => es

theorem entries_update (ino x : ℕ) (node : Node) (fs : Nodes) :
    entries x (update fs ino (some node)) =
      if x = ino then node.entries else entries x fs := by
  by_cases h : x = ino
  · subst h
    cases node <;> simp [Vfs.entries, Node.entries]
  · simp [Vfs.entries, h]

theorem entries_of_none (h : fs ino = none) : entries ino fs = [] := by
  simp [entries, h]

theorem WellFormed.update {node : Node} (h : WellFormed fs) (hfree : fs ino = none)
    (hnode : Names node.entries) : WellFormed (update fs ino (some node)) := by
  have hroot := h.root
  refine .of_names ?_ fun x => ?_
  · by_cases heq : rootIno = ino
    · simp [isDir, heq, hfree] at hroot
    · simpa [isDir, heq] using hroot
  · rw [entries_update]
    split
    · exact hnode
    · exact h.names x

theorem names_file : Names Node.file.entries := ⟨by simp [Node.entries], by simp [Node.entries]⟩

theorem names_newDir {ino parent : ℕ} (hino : ino ≠ 0) (hparent : parent ≠ 0) :
    Names (newDir ino parent).entries :=
  ⟨by simp [newDir, Node.entries], by simp [newDir, Node.entries, hino, hparent]⟩

theorem ino_ne_zero (hfs : WellFormed fs) (hrooted : Rooted d) (h : Attached fs d) : d.ino ≠ 0 := by
  cases d with
  | root ino =>
    cases hrooted
    decide
  | child parent name ino => exact hfs.nonzero _ _ h.2

/-- What a call that makes something leaves, when the lookup of its path has failed. -/
theorem makeIn_spec {e : ℤ} (hfs : WellFormed fs) (hrooted : Rooted base)
    (hbase : Attached fs base) (hpath : PlainPath path)
    (hnode : ∀ parent, ino ≠ 0 → parent ≠ 0 → Names (node parent).entries)
    (hlookup : pathLookup base path fs = .error e)
    (h : makeIn base path pos ino node fs = .ok fs') :
    WellFormed fs' ∧ Linked fs' ino ∧ ∀ x, Linked fs x → Linked fs' x := by
  obtain ⟨parent, last, hparent, hdir, hino, hfree, rfl⟩ := makeIn_ok h
  obtain ⟨hrootedParent, hlast⟩ := (rooted_inherited fs).pathParent hrooted hpath hparent
  have hattached := ((attached_inherited fs).pathParent hbase hpath hparent).1
  have hne : parent.ino ≠ ino := by
    rintro heq
    rw [heq] at hdir
    simp [isDir, hfree] at hdir
  have hnew := hnode parent.ino hino (ino_ne_zero hfs hrootedParent hattached)
  -- The lookup that failed was for the new name in this directory.
  have habsent : last ∉ (entries parent.ino fs).map Prod.fst := by
    have hwalk := pathWalk_eq_lookup hpath.1 hpath.2 hparent hdir
    rw [pathLookup, hwalk] at hlookup
    apply (hfs.names parent.ino).not_mem
    by_contra hfound
    simp [lookupSingle, hdir, hfound] at hlookup
  have hsame :
    entries parent.ino (update fs ino (some (node parent.ino))) = entries parent.ino fs := by
    rw [entries_update, if_neg hne]
  have hkept : ∀ x, ∀ e ∈ entries x fs, e ∈ entries x (setEntries parent.ino (addEntry pos last ino)
      (update fs ino (some (node parent.ino)))) := by
    intro x e he
    rw [entries_setEntries, hsame, entries_update]
    split
    next hx => exact mem_addEntry.mpr (.inr (hx ▸ he))
    · split
      next hx => simp [hx, entries_of_none hfree] at he
      · exact he
  refine ⟨(hfs.update hfree hnew).setEntries ?_, ?_, fun x hx => hx.mono hkept⟩
  · rw [hsame]
    exact (hfs.names _).addEntry pos habsent hino
  · refine ((linked_of_attached hrootedParent hattached).mono hkept).tail ⟨last, hlast, ?_⟩
    rw [entries_setEntries, if_pos rfl]
    exact mem_addEntry.mpr (.inl rfl)

/-! ## Removing -/

variable {stale : Bool}

theorem removeDentry_ok (h : removeDentry stale d fs = .ok fs') :
    fs' = setEntries d.parent.ino (without d.name) fs := by
  unfold removeDentry at h
  split at h
  · cases h
  · obtain ⟨es, hes, h⟩ := bind_eq_ok.mp h
    cases removeEntry_ok hes
    exact (Except.ok.inj h).symm

theorem mem_parent_of_attached (h : Attached fs d)
    (hroot : d.parent ≠ d) : (d.name, d.ino) ∈ entries d.parent.ino fs := by
  cases d with
  | root ino => exact absurd rfl hroot
  | child parent name ino => exact h.2

/-- Removing a leaf loses nothing but the leaf. -/
theorem removeDentry_spec (hfs : WellFormed fs) (hrooted : Rooted d)
    (hd : Attached fs d) (hleaf : Leaf d.ino fs) (h : removeDentry stale d fs = .ok fs') :
    WellFormed fs' ∧ ∀ x, Linked fs x → x ≠ d.ino → Linked fs' x := by
  cases removeDentry_ok h
  refine ⟨hfs.setEntries ((hfs.names _).without _), fun x hx hne => ?_⟩
  refine (hx.setEntries (· = d.ino) (fun name b hname hmem => ?_) ?_).resolve_right hne
  · by_cases hedge : name = d.name
    · right
      subst hedge
      cases d with
      | root ino => exact absurd hname (hleaf _ hmem)
      | child parent name ino => exact (hfs.names _).ino_unique hmem hd.2
    · exact .inl ⟨name, hname, mem_without.mpr ⟨hmem, hedge⟩⟩
  · rintro _ rfl
    exact hleaf

theorem leaf_of_not_isDir (h : isDir ino fs ≠ true) : Leaf ino fs := by
  intro e he
  cases hnode : fs ino with
  | none => simp [entries, hnode] at he
  | some node =>
    cases node with
    | file => simp [entries, hnode] at he
    | dir es => simp [isDir, hnode] at h

/-! ## Renaming -/

theorem Names.renameEntry {old : Name} {es' : List (Name × ℕ)} (hes : Names es)
    (h : renameEntry pos stale old last ino es = .ok es') :
    es' = Vfs.without old (Vfs.addEntry pos last ino (Vfs.without last es)) := by
  obtain ⟨es1, hes1, h⟩ := bind_eq_ok.mp h
  obtain rfl : es1 = Vfs.without last es := by
    split at hes1
    · exact removeEntry_ok hes1
    next hzero =>
      cases hes1
      refine (filter_eq_self.mpr fun e he => ?_).symm
      have hnot := hes.not_mem (not_not.mp hzero)
      exact decide_eq_true fun heq => hnot (mem_map.mpr ⟨e, he, heq⟩)
  exact removeEntry_ok h

theorem vfsRename_ok {oldBase newBase : Dentry} {oldPath newPath : List ℕ} (hfs : WellFormed fs)
    (h : vfsRename oldBase oldPath newBase newPath pos stale fs = .ok fs') :
    ∃ old parent last, pathLookup oldBase oldPath fs = .ok old ∧
      pathParent newBase newPath fs = .ok (parent, last) ∧ old.parent.ino = parent.ino ∧
      fs' = setEntries parent.ino
        (fun es => without old.name (addEntry pos last old.ino (without last es))) fs := by
  obtain ⟨old, hold, h⟩ := bind_eq_ok.mp h
  obtain ⟨⟨parent, last⟩, hparent, h⟩ := bind_eq_ok.mp h
  dsimp only at h
  split at h
  · cases h
  split at h
  · cases h
  split at h
  · cases h
  next hsame =>
    obtain ⟨es, hes, h⟩ := bind_eq_ok.mp h
    cases (hfs.names parent.ino).renameEntry hes
    exact ⟨old, parent, last, hold, hparent, not_not.mp hsame, (Except.ok.inj h).symm⟩

/-- A safe rename loses nothing but what had the new name. -/
theorem rename_spec {old : Dentry} (hfs : WellFormed fs) (hold : Attached fs old)
    (hsame : old.parent.ino = parent.ino) (hlast : Proper last)
    (hsafe : RenameSafe old parent last fs) (hfs' : fs' = setEntries parent.ino
      (fun es => without old.name (addEntry pos last old.ino (without last es))) fs) :
    WellFormed fs' ∧
      ∀ x, Linked fs x → x ≠ dirLookup last (entries parent.ino fs) → Linked fs' x := by
  obtain ⟨hroot, hname, hleaf⟩ := hsafe
  have hmemOld : (old.name, old.ino) ∈ entries parent.ino fs :=
    hsame ▸ mem_parent_of_attached hold hroot
  subst hfs'
  have hnames := hfs.names parent.ino
  refine ⟨hfs.setEntries ?_, fun x hx hne => ?_⟩
  · have hino : old.ino ≠ 0 := hnames.nonzero (old.name, old.ino) hmemOld
    exact ((hnames.without last).addEntry pos (by simp) hino).without _
  · refine (hx.setEntries (fun y => (last, y) ∈ entries parent.ino fs)
      (fun name b hproper hmem => ?_) fun a ha => hleaf _ ha rfl).elim id fun hlost => ?_
    · by_cases hnew : name = last
      · exact .inr (hnew ▸ hmem)
      by_cases hren : name = old.name
      · -- The inode goes on being reached, by its new name.
        subst hren
        cases hnames.ino_unique hmem hmemOld
        exact .inl ⟨last, hlast, by simp [hname.symm]⟩
      · exact .inl ⟨name, hproper, by simp [hmem, hnew, hren]⟩
    · have hfound : dirLookup last (entries parent.ino fs) ≠ 0 :=
        fun hzero => hnames.not_mem hzero (mem_map.mpr ⟨_, hlost, rfl⟩)
      exact absurd (hnames.ino_unique hlost (mem_dirLookup hfound)) hne

/-! ## Runs -/

/-- What holds between the calls of a safe run. -/
structure Connected (s : State) (created removed : List ℕ) : Prop where
  wellFormed : WellFormed s.fs
  rooted : ∀ d ∈ s.cwds, Rooted d
  linked : ∀ ino ∈ created, ino ∉ removed → Linked s.fs ino

theorem Connected.boot (hfs : WellFormed fs) : Connected ⟨fs, [rootDentry]⟩ [] [] where
  wellFormed := hfs
  rooted := by simp [rootDentry, Rooted]
  linked := by simp

/-- A call that keeps the tree, links what it makes and loses only what it removes. -/
theorem Connected.change (made gone : List ℕ) (h : Connected s created removed)
    (hfs' : WellFormed fs') (hmade : ∀ ino ∈ made, Linked fs' ino)
    (hkept : ∀ x, Linked s.fs x → x ∉ gone → Linked fs' x) :
    Connected { s with fs := fs' } (made ++ created) (gone ++ removed) where
  wellFormed := hfs'
  rooted := h.rooted
  linked ino hino hnot := by
    simp only [mem_append, not_or] at hino hnot
    rcases hino with hino | hino
    · exact hmade ino hino
    · exact hkept ino (h.linked ino hino hnot.2) hnot.1

section

variable (h : Connected s created removed)

include h

theorem Connected.chdir (hbase : base ∈ s.cwds) (hstep : sysChdir base path s = .ok s') :
    Connected s' created removed := by
  obtain ⟨d, hlookup, hstep⟩ := bind_eq_ok.mp hstep
  split at hstep
  · cases hstep
  cases hstep
  refine ⟨h.wellFormed, ?_, h.linked⟩
  simp only [forall_mem_cons]
  exact ⟨(rooted_inherited s.fs).pathLookup (h.rooted base hbase) hlookup, h.rooted⟩

theorem Connected.remove (hrooted : Rooted base) (hbase : Attached s.fs base)
    (hlookup : pathLookup base path s.fs = .ok d) (hleaf : Leaf d.ino s.fs)
    (hstep : removeDentry stale d s.fs = .ok fs') :
    Connected { s with fs := fs' } created
      (((pathLookup base path s.fs).toOption.map Dentry.ino).toList ++ removed) := by
  obtain ⟨hfs', hkept⟩ := removeDentry_spec h.wellFormed
    ((rooted_inherited s.fs).pathLookup hrooted hlookup)
    ((attached_inherited s.fs).pathLookup hbase hlookup) hleaf hstep
  apply h.change [] _ hfs' (by simp)
  intro x hx hne
  exact hkept x hx (by simpa [hlookup, Except.toOption] using hne)

theorem Connected.rename {oldBase newBase : Dentry} {oldPath newPath : List ℕ}
    (hnew : Rooted newBase) (hsafe : (Call.rename oldBase oldPath newBase newPath pos stale).Safe s)
    (hstep : vfsRename oldBase oldPath newBase newPath pos stale s.fs = .ok fs') :
    Connected { s with fs := fs' } created
      ((Call.rename oldBase oldPath newBase newPath pos stale).removes s ++ removed) := by
  obtain ⟨hattOld, -, hpath, hrename⟩ := hsafe
  obtain ⟨old, parent, last, hold, hparent, hsame, hfs'⟩ := vfsRename_ok h.wellFormed hstep
  obtain ⟨hwf, hkept⟩ := rename_spec h.wellFormed
    ((attached_inherited s.fs).pathLookup hattOld hold) hsame
    ((rooted_inherited s.fs).pathParent hnew hpath hparent).2 (hrename old parent last hold hparent)
    hfs'
  apply h.change [] _ hwf (by simp)
  intro x hx hne
  exact hkept x hx (by simpa [Call.removes, hparent, Except.toOption] using hne)

theorem Connected.make {e : ℤ} (hrooted : Rooted base)
    (hsafe : Attached s.fs base ∧ PlainPath path)
    (hnode : ∀ parent, ino ≠ 0 → parent ≠ 0 → Names (node parent).entries)
    (hlookup : pathLookup base path s.fs = .error e)
    (hstep : makeIn base path pos ino node s.fs = .ok fs') :
    Connected { s with fs := fs' } (ino :: created) removed := by
  obtain ⟨hwf, hino, hkept⟩ := makeIn_spec h.wellFormed hrooted hsafe.1 hsafe.2 hnode hlookup hstep
  exact h.change [ino] [] hwf (by simpa using hino) (fun x hx _ => hkept x hx)

end

theorem Connected.call (c : Call)
    (h : Connected s created removed) (hbases : ∀ d ∈ c.bases, d ∈ s.cwds) (hsafe : c.Safe s)
    (hstep : c.run s = .ok s') : Connected s' (c.creates s ++ created) (c.removes s ++ removed) := by
  have hrooted : ∀ d ∈ c.bases, Rooted d := fun d hd => h.rooted d (hbases d hd)
  cases c
  case chdir base path => exact h.chdir (hbases base (by simp [Call.bases])) hstep
  all_goals
    obtain ⟨fs', hfs', hs'⟩ := bind_eq_ok.mp hstep
    cases hs'
    have hbase := hrooted _ mem_cons_self
  case create base path pos ino =>
    unfold vfsCreate at hfs'
    cases hlookup : pathLookup base path s.fs with
    | ok d => simp [hlookup] at hfs'
    | error e =>
      rw [hlookup] at hfs'
      exact h.make hbase hsafe (fun _ _ _ => names_file) hlookup hfs'
  case openCreate base path pos ino =>
    unfold vfsOpenCreate at hfs'
    cases hlookup : pathLookup base path s.fs with
    | ok d =>
      rw [hlookup] at hfs'
      cases hfs'
      simpa [Call.creates, Call.removes, hlookup] using h
    | error e =>
      simp only [hlookup] at hfs'
      split at hfs'
      · simpa [Call.creates, Call.removes, hlookup] using
          h.make hbase hsafe (fun _ _ _ => names_file) hlookup hfs'
      · cases hfs'
  case mkdir base path pos ino =>
    unfold vfsMkdir at hfs'
    cases hlookup : pathLookup base path s.fs with
    | ok d => simp [hlookup] at hfs'
    | error e =>
      rw [hlookup] at hfs'
      exact h.make hbase hsafe (fun _ => names_newDir) hlookup hfs'
  case rename oldBase oldPath newBase newPath pos stale =>
    exact h.rename (hrooted newBase (by simp [Call.bases])) hsafe hfs'
  all_goals
    obtain ⟨d, hlookup, hfs'⟩ := bind_eq_ok.mp hfs'
    split at hfs'
    · cases hfs'
  case unlink base path stale hfile => exact h.remove hbase hsafe hlookup (leaf_of_not_isDir hfile) hfs'
  case rmdir base path stale _ => exact h.remove hbase hsafe.1 hlookup (hsafe.2 d hlookup) hfs'

theorem Run.connected (hfs : WellFormed fs)
    (h : Run Call.Safe fs s created removed) : Connected s created removed := by
  induction h with
  | boot => exact Connected.boot hfs
  | call c _ hbases hok hstep ih => exact ih.call c hbases hok hstep

/-- In a run of safe calls, what was created and not removed is reachable from the root. -/
theorem created_reachable {fs : Nodes} {s : State} {created removed : List ℕ}
    (hfs : WellFormed fs) (h : Run Call.Safe fs s created removed) :
    ∀ ino ∈ created, ino ∉ removed → Reachable s.fs ino :=
  fun ino hino hnot => ((h.connected hfs).linked ino hino hnot).reachable

def rootOnly : Nodes := fun ino => if ino = rootIno then some (newDir rootIno rootIno) else none

theorem rootOnly_wellFormed : WellFormed rootOnly := by
  refine .of_names (by decide) fun ino => ?_
  by_cases h : ino = rootIno
  · subst h
    exact names_newDir (by decide) (by decide)
  · have hnone : entries ino rootOnly = [] := by simp [entries, rootOnly, h]
    rw [hnone]
    exact names_file

abbrev dirPath : List ℕ := [100]

abbrev filePath : List ℕ := [100, slash, 102]

def withDir : Nodes :=
  setEntries rootIno (addEntry 2 dirPath 12) (update rootOnly 12 (some (newDir 12 rootIno)))

def withFile : Nodes := setEntries 12 (addEntry 2 [102] 13) (update withDir 13 (some .file))

theorem run_withFile {Ok : Call → State → Prop}
    (hdir : Ok (.mkdir rootDentry dirPath 2 12) ⟨rootOnly, [rootDentry]⟩)
    (hfile : Ok (.openCreate rootDentry filePath 2 13) ⟨withDir, [rootDentry]⟩) :
    Run Ok rootOnly ⟨withFile, [rootDentry]⟩ [13, 12] [] := by
  have h1 : Run Ok rootOnly ⟨withDir, [rootDentry]⟩ [12] [] :=
    .call (.mkdir rootDentry dirPath 2 12) .boot (by simp [Call.bases]) hdir rfl
  exact .call (.openCreate rootDentry filePath 2 13) h1 (by simp [Call.bases]) hfile rfl

/-- After both calls, the file is reachable. -/
theorem created_reachable_file : Reachable withFile 13 := by
  have hdir : (Call.mkdir rootDentry dirPath 2 12).Safe ⟨rootOnly, [rootDentry]⟩ :=
    ⟨trivial, by decide⟩
  have hfile : (Call.openCreate rootDentry filePath 2 13).Safe ⟨withDir, [rootDentry]⟩ :=
    ⟨trivial, by decide⟩
  exact created_reachable rootOnly_wellFormed (run_withFile hdir hfile) 13 (by simp) (by simp)

/-- `rmdir("d")` succeeds although `f` is in it, and no entry leads to `f` any more. -/
theorem created_lost_by_rmdir :
    ∃ (fs : Nodes) (s : State) (created removed : List ℕ) (ino : ℕ), WellFormed fs ∧
      Run (fun _ _ => True) fs s created removed ∧ ino ∈ created ∧ ino ∉ removed ∧
        ¬ Reachable s.fs ino := by
  have hrun : Run (fun _ _ => True) rootOnly
      ⟨setEntries rootIno (without dirPath) withFile, [rootDentry]⟩ [13, 12] [12] :=
    .call (.rmdir rootDentry dirPath false) (run_withFile trivial trivial) (by simp [Call.bases]) trivial
      rfl
  refine ⟨rootOnly, _, _, _, 13, rootOnly_wellFormed, hrun, by simp, by simp, ?_⟩
  -- The entries of the root lead to the root alone.
  intro h
  have hroot : ∀ ino, Reachable (setEntries rootIno (without dirPath) withFile) ino →
      ino = rootIno := by
    intro ino hino
    induction hino with
    | refl => rfl
    | tail _ hedge ih =>
      subst ih
      obtain ⟨name, hmem⟩ := hedge
      have hentries : entries rootIno (setEntries rootIno (without dirPath) withFile) =
          [([dot], rootIno), ([dot, dot], rootIno)] := rfl
      rw [hentries] at hmem
      simp at hmem
      omega
  exact absurd (hroot 13 h) (by decide)

/-! ## Paths and their components

Names joined to a path, and the bytes that a path has besides its slashes. -/

open Exec (slash dot getName skipSlashes)

variable {names : List Name} {rest : List ℕ} {fuel : ℕ}

/-- The number of bytes in a list of names. -/
def weight (names : List Name) : ℕ := (names.map List.length).sum

@[simp] theorem weight_nil : weight [] = 0 := rfl

@[simp] theorem weight_cons (name : Name) (names : List Name) :
    weight (name :: names) = name.length + weight names := by
  simp [weight]

@[simp] theorem weight_append (names names' : List Name) :
    weight (names ++ names') = weight names + weight names' := by
  simp [weight]

/-- A name that an entry of a directory can have and that walks look up. -/
structure Valid (name : Name) : Prop where
  proper : Proper name
  nonempty : name ≠ []
  slash : slash ∉ name
  nul : 0 ∉ name
  length : name.length ≤ nameMax

theorem weight_pos (hnames : names ≠ []) (hvalid : ∀ n ∈ names, Valid n) : 0 < weight names := by
  cases names with
  | nil => exact absurd rfl hnames
  | cons name names =>
    have := length_pos_iff.mpr (hvalid name (by simp)).nonempty
    rw [weight_cons]
    omega

theorem getName_append (hslash : slash ∉ name) (hlength : name.length ≤ nameMax)
    (hrest : rest = [] ∨ rest.head? = some slash) : getName (name ++ rest) = name := by
  have hname : ∀ c ∈ name, decide (c ≠ slash) = true := by
    intro c hc
    have hne : c ≠ slash := fun heq => hslash (heq ▸ hc)
    simpa using hne
  unfold getName
  rw [take_append, take_of_length_le hlength, takeWhile_append_of_pos hname]
  rcases hrest with rfl | hrest
  · simp
  cases rest with
  | nil => simp at hrest
  | cons c rest =>
    cases hrest
    cases nameMax - name.length <;> simp

def join (names : List Name) : List ℕ := names.flatMap (slash :: ·)

@[simp] theorem join_nil : join [] = [] := rfl

@[simp] theorem join_cons (name : Name) (names : List Name) :
    join (name :: names) = slash :: (name ++ join names) := by
  simp [join]

@[simp] theorem join_append (names names' : List Name) :
    join (names ++ names') = join names ++ join names' := by
  simp [join]

theorem length_join (names : List Name) : (join names).length = names.length + weight names := by
  induction names with
  | nil => simp
  | cons name names ih =>
    simp [ih]
    omega

theorem join_head (names : List Name) : join names = [] ∨ (join names).head? = some slash := by
  cases names with
  | nil => exact .inl rfl
  | cons name names => exact .inr (by simp)

theorem skipSlashes_append (hname : Valid name) : skipSlashes (name ++ rest) = name ++ rest := by
  cases name with
  | nil => exact absurd rfl hname.nonempty
  | cons c name =>
    have hc : c ≠ slash := fun heq => hname.slash (by simp [heq])
    simp [skipSlashes, hc]

theorem componentsLoop_append (hname : Valid name) (hrest : rest = [] ∨ rest.head? = some slash)
    (fuel : ℕ) :
    componentsLoop (fuel + 1) (name ++ rest) = name :: componentsLoop fuel (skipSlashes rest) := by
  rw [componentsLoop, if_neg (by simp [hname.nonempty]),
    getName_append hname.slash hname.length hrest, drop_left]

theorem skipSlashes_join_cons (hname : Valid name) :
    skipSlashes (join (name :: names)) = name ++ join names := by
  rw [join_cons]
  exact skipSlashes_append hname

theorem componentsLoop_join (hvalid : ∀ n ∈ names, Valid n) (hfuel : names.length ≤ fuel) :
    componentsLoop fuel (skipSlashes (join names)) = names := by
  induction names generalizing fuel with
  | nil => cases fuel <;> rfl
  | cons name names ih =>
    have hname := hvalid name (by simp)
    obtain ⟨fuel, rfl⟩ := Nat.exists_eq_add_of_le' (le_trans (by simp) hfuel : 1 ≤ fuel)
    rw [skipSlashes_join_cons hname, componentsLoop_append hname (join_head names),
      ih (fun n hn => hvalid n (by simp [hn])) (by simpa using hfuel)]

theorem components_join (hvalid : ∀ n ∈ names, Valid n) (k : ℕ) :
    components (List.replicate k slash ++ join names) = names := by
  have hskip : skipSlashes (List.replicate k slash ++ join names) = skipSlashes (join names) := by
    unfold skipSlashes
    rw [dropWhile_append_of_pos (by simp)]
  unfold components
  rw [hskip]
  apply componentsLoop_join hvalid
  cases names with
  | nil => simp
  | cons name names =>
    have hname : 0 < name.length := length_pos_iff.mpr (hvalid name (by simp)).nonempty
    rw [skipSlashes_join_cons (hvalid name (by simp)), length_append, length_join, length_cons]
    omega

/-- The bytes of a path that are not slashes. -/
abbrev bytes (path : List ℕ) : ℕ := path.countP (· ≠ slash)

theorem bytes_skipSlashes (path : List ℕ) : bytes (skipSlashes path) = bytes path := by
  unfold bytes skipSlashes
  induction path with
  | nil => rfl
  | cons c path ih =>
    by_cases hc : c = slash
    · simpa [hc] using ih
    · simp [hc]

theorem skipSlashes_length_le (path : List ℕ) : (skipSlashes path).length ≤ path.length :=
  (dropWhile_suffix _).length_le

theorem bytes_getName (path : List ℕ) : bytes (getName path) = (getName path).length := by
  rw [bytes, countP_eq_length]
  exact all_eq_true.mp all_takeWhile

theorem bytes_split (path : List ℕ) :
    bytes path = (getName path).length + bytes (path.drop (getName path).length) := by
  have hinit : getName path <+: path :=
    (List.takeWhile_prefix _).trans (List.take_prefix nameMax path)
  calc bytes path
      = bytes (getName path ++ path.drop (getName path).length) := by
        rw [prefix_iff_eq_append.mp hinit]
    _ = bytes (getName path) + bytes (path.drop (getName path).length) := countP_append
    _ = _ := by rw [bytes_getName]

theorem getName_pos {path : List ℕ} (h : skipSlashes path ≠ []) :
    0 < (getName (skipSlashes path)).length := by
  cases hpath : skipSlashes path with
  | nil => exact absurd hpath h
  | cons c rest =>
    have hc : c ≠ slash := by
      have := List.head?_dropWhile_not (· = slash) path
      unfold skipSlashes at hpath
      rw [hpath] at this
      simpa using this
    simp [getName, hc]

theorem weight_componentsLoop (fuel : ℕ) :
    ∀ path, (skipSlashes path).length ≤ fuel →
      weight (componentsLoop fuel (skipSlashes path)) = bytes path := by
  induction fuel with
  | zero =>
    intro path hfuel
    have hnil : skipSlashes path = [] := length_eq_zero_iff.mp (Nat.le_zero.mp hfuel)
    rw [← bytes_skipSlashes, hnil]
    rfl
  | succ fuel ih =>
    intro path hfuel
    rw [componentsLoop, ← bytes_skipSlashes path]
    split
    next hnil => simp [hnil]
    next hne =>
      have hpos := getName_pos hne
      have hshort : (skipSlashes ((skipSlashes path).drop
          (getName (skipSlashes path)).length)).length ≤ fuel := by
        have hle := skipSlashes_length_le
          ((skipSlashes path).drop (getName (skipSlashes path)).length)
        rw [length_drop] at hle
        omega
      rw [weight_cons, ih _ hshort, ← bytes_split]

theorem weight_components (path : List ℕ) : weight (components path) = bytes path :=
  weight_componentsLoop _ path le_rfl

theorem join_replicate (k : ℕ) : join (List.replicate k [slash]) = List.replicate (2 * k) slash := by
  induction k with
  | zero => rfl
  | succ k ih =>
    rw [replicate_succ, join_cons, ih]
    rfl

theorem bytes_of_valid {name : Name} (h : Valid name) : bytes name = name.length := by
  rw [bytes, countP_eq_length]
  intro c hc
  have hne : c ≠ slash := fun heq => h.slash (heq ▸ hc)
  simpa using hne

theorem bytes_join (hvalid : ∀ n ∈ names, Valid n) : bytes (join names) = weight names := by
  induction names with
  | nil => rfl
  | cons name names ih =>
    have hname := bytes_of_valid (hvalid name (by simp))
    have hnames := ih fun n hn => hvalid n (mem_cons_of_mem _ hn)
    rw [join_cons, bytes, countP_cons_of_neg (by simp), countP_append, weight_cons]
    exact congrArg₂ (· + ·) hname hnames

theorem bytes_replicate (k : ℕ) : bytes (List.replicate k slash) = 0 := by
  simp [bytes, countP_eq_zero]

theorem bytes_cut (hvalid : ∀ n ∈ names, Valid n) (hnames : names ≠ []) (slashes : List ℕ) {k : ℕ}
    (hk : k < (slashes ++ join names).length) : 0 < bytes ((slashes ++ join names).drop k) := by
  obtain ⟨init, last, rfl⟩ : ∃ init last, names = init ++ [last] :=
    ⟨names.dropLast, names.getLast hnames, (dropLast_append_getLast hnames).symm⟩
  have hlast := hvalid last (by simp)
  have hsplit : slashes ++ join (init ++ [last]) = (slashes ++ join init ++ [slash]) ++ last := by
    simp
  rw [hsplit] at hk ⊢
  rw [drop_append, bytes, countP_append]
  set rest := last.drop (k - (slashes ++ join init ++ [slash]).length) with hrest
  have hpos := length_pos_iff.mpr hlast.nonempty
  have hne : rest ≠ [] := by
    rw [hrest, Ne, drop_eq_nil_iff]
    simp only [length_append] at hk ⊢
    omega
  obtain ⟨c, hc⟩ := exists_mem_of_ne_nil rest hne
  have hslash : c ≠ slash := fun heq => hlast.slash (heq ▸ mem_of_mem_drop hc)
  have hbytes : 0 < rest.countP (· ≠ slash) := countP_pos_iff.mpr ⟨c, hc, by simpa using hslash⟩
  omega

theorem nul_not_mem_join (hvalid : ∀ n ∈ names, Valid n) : 0 ∉ join names := by
  intro hmem
  obtain ⟨name, hname, h0⟩ := mem_flatMap.mp hmem
  rcases mem_cons.mp h0 with h0 | h0
  · cases h0
  · exact (hvalid name hname).nul h0

end NoobKernel.Vfs
