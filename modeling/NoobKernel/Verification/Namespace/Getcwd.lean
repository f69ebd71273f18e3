import NoobKernel.Verification.Namespace.Connected

/-! # The path of the current directory

When the path that `sys_getcwd` stores leads back to the current directory. What a walk loses,
by `..` or by a mount that it enters, is measured by the bytes in the names of a dentry. -/

namespace NoobKernel.Cwd

open List
open Library hiding bytes
open Exec (slash)
open Vfs (Name Nodes isDir entries components Proper Valid weight weight_nil weight_cons
  weight_append weight_pos weight_components join join_nil join_cons join_append join_replicate
  length_join components_join bytes bytes_join bytes_replicate bytes_cut nul_not_mem_join)

/-! ## Names of dentries -/

/-- The names from the root of the file system to a dentry. -/
def Dentry.names : Dentry → List Name
  | .root _ => []
  | .child _ parent name _ => parent.names ++ [name]

/-- Each name on the way to the dentry is an entry of the directory before it. -/
def Attached (ns : Namespace) : Dentry → Prop
  | .root _ => True
  | .child _ parent name ino =>
    Attached ns parent ∧ Valid name ∧ lookupIno parent name ns = ino ∧ ino ≠ 0

/-- The directories of each file system form a tree of valid names. -/
structure WellFormed (ns : Namespace) : Prop where
  valid : ∀ sb ino, ∀ e ∈ entries ino (ns.fs sb), Proper e.1 → Valid e.1
  unique : ∀ d d', Attached ns d → Attached ns d' → isDirectory d ns = true →
    d.inode = d'.inode → d.names = d'.names

variable {ns : Namespace} {addr : Addresses} {d d' next : Dentry} {name : Name} {names : List Name}
  {path : List ℕ}

theorem Attached.valid (h : Attached ns d) : ∀ name ∈ d.names, Valid name := by
  induction d with
  | root sb => simp [Dentry.names]
  | child addr parent name ino ih =>
    intro n hn
    rcases mem_append.mp hn with hn | hn
    · exact ih h.1 n hn
    · cases mem_singleton.mp hn
      exact h.2.1

/-! ## The path that is stored -/

theorem stackLoop_root {root : Dentry} {sb : ℕ} (h : Dentry.root sb ≠ root) (fuel : ℕ) :
    stackLoop root fuel (.root sb) = replicate fuel (.root sb) := by
  induction fuel with
  | zero => rfl
  | succ fuel ih => simp [stackLoop, h, Dentry.parent, ih, replicate_succ]

/-- Below the root of another file system, the rest of the stack is filled with this root. -/
def padding (d : Dentry) (ns : Namespace) : ℕ :=
  if d.sb = ns.rootSb then 0 else stackSize - d.names.length

theorem stackLoop_names (root fuel : ℕ) (d : Dentry) :
    ((stackLoop (.root root) fuel d).reverse.map Dentry.name) =
      replicate (if d.sb = root then 0 else fuel - d.names.length) [slash] ++
        d.names.drop (d.names.length - fuel) := by
  induction d generalizing fuel with
  | root sb =>
    by_cases hsb : sb = root
    · subst hsb
      cases fuel <;> simp [stackLoop, Dentry.names, Dentry.sb]
    · have hne : Dentry.root sb ≠ .root root := by simpa using hsb
      simp [stackLoop_root hne, Dentry.names, Dentry.sb, hsb, Dentry.name]
  | child addr parent name ino ih =>
    cases fuel with
    | zero => simp [stackLoop, Dentry.names]
    | succ fuel =>
      have hdrop : (parent.names ++ [name]).drop (parent.names.length - fuel) =
          parent.names.drop (parent.names.length - fuel) ++ [name] := by
        rw [drop_append_of_le_length (by omega)]
      simp [stackLoop, Dentry.parent, ih, Dentry.names, Dentry.sb, Dentry.name, hdrop]

theorem appendName_eq (hpath : path.length ≤ pathSize - 1) (name : Name) :
    appendName path name = (path ++ slash :: name).take (pathSize - 1) := by
  unfold appendName
  by_cases hlt : path.length < pathSize - 1
  · have hsplit : path ++ slash :: name = (path ++ [slash]) ++ name := by simp
    have hlength : (path ++ [slash]).length ≤ pathSize - 1 := by
      rw [length_append]
      exact hlt
    simp only [if_pos hlt]
    rw [hsplit, take_append, take_of_length_le hlength]
  · have heq : path.length = pathSize - 1 := by omega
    simp only [if_neg hlt]
    rw [take_append, take_of_length_le hpath, heq]
    simp

theorem take_take_append {α : Type*} (n : ℕ) (xs ys : List α) :
    (xs.take n ++ ys).take n = (xs ++ ys).take n := by
  rw [take_append, take_append, take_take, Nat.min_self, length_take]
  by_cases h : xs.length ≤ n
  · rw [Nat.min_eq_right h]
  · simp [Nat.min_eq_left (Nat.le_of_not_le h), Nat.sub_eq_zero_of_le (Nat.le_of_not_le h)]

theorem foldl_appendName (names : List Name) :
    ∀ path : List ℕ, path.length ≤ pathSize - 1 →
      names.foldl appendName path = (path ++ join names).take (pathSize - 1) := by
  induction names with
  | nil =>
    intro path hpath
    rw [join_nil, append_nil, take_of_length_le hpath]
    rfl
  | cons name names ih =>
    intro path hpath
    rw [foldl_cons, appendName_eq hpath, ih _ (by simp), take_take_append, join_cons]
    simp

/-- What `sys_getcwd` writes when it has space. -/
def fullPath (d : Dentry) (ns : Namespace) : List ℕ :=
  replicate (2 * padding d ns) slash ++ join (d.names.drop (d.names.length - stackSize))

theorem cwdPath_eq (d : Dentry) (ns : Namespace) :
    cwdPath d ns = if fullPath d ns = [] then [slash] else (fullPath d ns).take (pathSize - 1) := by
  have hpath : ((stackLoop (vfsGetRoot ns) stackSize d).reverse.map Dentry.name).foldl appendName []
      = (fullPath d ns).take (pathSize - 1) := by
    rw [foldl_appendName _ [] (by simp), vfsGetRoot, stackLoop_names, nil_append, join_append,
      join_replicate]
    rfl
  have hiff : (fullPath d ns).take (pathSize - 1) = [] ↔ fullPath d ns = [] := by
    simp [take_eq_nil_iff]
  simp only [cwdPath, hpath, hiff]

/-! ## Walks -/

theorem followMount_cases (d : Dentry) (ns : Namespace) :
    (vfsLookupMount d ns = none ∧ followMount d ns = d) ∨
      ∃ sb, vfsLookupMount d ns ≠ none ∧ followMount d ns = .root sb := by
  unfold followMount
  cases h : vfsLookupMount d ns with
  | none => exact .inl ⟨rfl, rfl⟩
  | some mnt => exact .inr ⟨mnt.sb, by simp, rfl⟩

theorem Attached.followMount (h : Attached ns d) : Attached ns (followMount d ns) := by
  rcases followMount_cases d ns with ⟨-, heq⟩ | ⟨sb, -, heq⟩
  · rwa [heq]
  · rw [heq]
    trivial

theorem weight_followMount (d : Dentry) (ns : Namespace) :
    weight (followMount d ns).names ≤ weight d.names := by
  rcases followMount_cases d ns with ⟨-, heq⟩ | ⟨sb, -, heq⟩
  · rw [heq]
  · simp [heq, Dentry.names]

def entry (addr : Addresses) (d : Dentry) (name : Name) (ns : Namespace) : Dentry :=
  .child (addr d name) d name (lookupIno d name ns)

theorem lookupSingle_ok (h : lookupSingle addr d name ns = .ok next) :
    next = entry addr (followMount d ns) name ns ∧ lookupIno (followMount d ns) name ns ≠ 0 := by
  unfold lookupSingle at h
  simp only at h
  split at h
  · cases h
  split at h
  · cases h
  next hino =>
    cases h
    exact ⟨rfl, hino⟩

theorem walkName_cases (h : walkName addr d name ns = .ok next) :
    next = d ∨ next = d.parent ∨
      (Proper name ∧ lookupIno (followMount d ns) name ns ≠ 0 ∧
        next = followMount (entry addr (followMount d ns) name ns) ns) := by
  unfold walkName at h
  split at h
  · cases h
    exact .inl rfl
  next hdot =>
    split at h
    · cases h
      exact .inr (.inl rfl)
    next hdots =>
      obtain ⟨found, hlookup, h⟩ := Outcome.bind_eq_ok.mp h
      cases h
      obtain ⟨rfl, hino⟩ := lookupSingle_ok hlookup
      exact .inr (.inr ⟨⟨hdot, hdots⟩, hino, rfl⟩)

theorem Attached.parent (h : Attached ns d) : Attached ns d.parent := by
  cases d with
  | root sb => trivial
  | child addr parent name ino => exact h.1

theorem Attached.entry (hns : WellFormed ns) (h : Attached ns d) (hname : Proper name)
    (hino : lookupIno d name ns ≠ 0) : Attached ns (entry addr d name ns) :=
  ⟨h, hns.valid _ _ _ (Vfs.mem_dirLookup hino) hname, rfl, hino⟩

theorem Attached.walkName (hns : WellFormed ns) (hd : Attached ns d)
    (h : walkName addr d name ns = .ok next) : Attached ns next := by
  rcases walkName_cases h with rfl | rfl | ⟨hname, hino, rfl⟩
  · exact hd
  · exact hd.parent
  · exact (hd.followMount.entry hns hname hino).followMount

theorem weight_parent (d : Dentry) : weight d.parent.names ≤ weight d.names := by
  cases d with
  | root sb => exact le_rfl
  | child addr parent name ino => simp [Dentry.parent, Dentry.names]

theorem weight_walkName (h : walkName addr d name ns = .ok next) :
    weight next.names ≤ weight d.names + name.length := by
  rcases walkName_cases h with rfl | rfl | ⟨-, -, rfl⟩
  · omega
  · have := weight_parent d
    omega
  have h1 := weight_followMount d ns
  have h2 := weight_followMount (entry addr (followMount d ns) name ns) ns
  simp only [entry, Dentry.names, weight_append, weight_cons, weight_nil] at h2
  unfold entry
  omega

theorem pathWalk_cons {rest : List Name} (h : pathWalk addr ns (name :: rest) d = .ok d') :
    ∃ next, walkName addr d name ns = .ok next ∧ pathWalk addr ns rest next = .ok d' := by
  obtain ⟨next, hwalk, h⟩ := Outcome.bind_eq_ok.mp h
  split at h
  · cases h
  · exact ⟨next, hwalk, h⟩

theorem Attached.pathWalk (hns : WellFormed ns) (hd : Attached ns d)
    (h : pathWalk addr ns names d = .ok d') : Attached ns d' := by
  induction names generalizing d with
  | nil =>
    cases h
    exact hd
  | cons name rest ih =>
    obtain ⟨next, hwalk, hrest⟩ := pathWalk_cons h
    exact ih (hd.walkName hns hwalk) hrest

theorem weight_pathWalk (h : pathWalk addr ns names d = .ok d') :
    weight d'.names ≤ weight d.names + weight names := by
  induction names generalizing d with
  | nil =>
    cases h
    simp
  | cons name rest ih =>
    obtain ⟨next, hwalk, hrest⟩ := pathWalk_cons h
    have h1 := weight_walkName hwalk
    have h2 := ih hrest
    rw [weight_cons]
    omega

/-- No directory on the way along the names, as these lookups find it, is one on which
`vfs_lookup_mount` finds a mount. -/
def Uncovered (addr : Addresses) (ns : Namespace) : List Name → Dentry → Prop
  | [], _ => True
  | name :: rest, d =>
    vfsLookupMount (entry addr d name ns) ns = none ∧ Uncovered addr ns rest (entry addr d name ns)

theorem uncovered_of_weight (hnames : names ≠ []) (hvalid : ∀ name ∈ names, Valid name)
    (h : pathWalk addr ns names d = .ok d')
    (hweight : weight d'.names = weight (followMount d ns).names + weight names) :
    Uncovered addr ns names (followMount d ns) ∧ d'.sb = (followMount d ns).sb := by
  induction names generalizing d with
  | nil => exact absurd rfl hnames
  | cons name rest ih =>
    obtain ⟨next, hwalk, hrest⟩ := pathWalk_cons h
    have hname := hvalid name (by simp)
    have hpos : 0 < name.length := length_pos_iff.mpr hname.nonempty
    have hnext : next = followMount (entry addr (followMount d ns) name ns) ns := by
      rw [walkName, if_neg hname.proper.1, if_neg hname.proper.2] at hwalk
      obtain ⟨found, hlookup, hwalk⟩ := Outcome.bind_eq_ok.mp hwalk
      cases hwalk
      rw [(lookupSingle_ok hlookup).1]
    have hle := weight_pathWalk hrest
    rw [weight_cons] at hweight
    rcases followMount_cases (entry addr (followMount d ns) name ns) ns with
      ⟨hnone, hsame⟩ | ⟨sb, -, hroot⟩
    · rw [hsame] at hnext
      subst hnext
      cases rest with
      | nil =>
        cases hrest
        exact ⟨⟨hnone, trivial⟩, rfl⟩
      | cons next rest =>
        have hrestOk := ih (by simp) (fun n hn => hvalid n (mem_cons_of_mem _ hn)) hrest (by
          rw [hsame, hweight]
          simp [entry, Dentry.names]
          omega)
        rw [hsame] at hrestOk
        exact ⟨⟨hnone, hrestOk.1⟩, hrestOk.2⟩
    · -- The mount has been entered behind a name, whose bytes are lost.
      rw [hroot] at hnext
      subst hnext
      simp only [Dentry.names, weight_nil] at hle
      omega

def Found (addr : Addresses) (ns : Namespace) : List Name → Dentry → Prop
  | [], _ => True
  | name :: rest, d => lookupIno d name ns ≠ 0 ∧ Found addr ns rest (entry addr d name ns)

def along (addr : Addresses) (ns : Namespace) : List Name → Dentry → Dentry
  | [], d => d
  | name :: rest, d => along addr ns rest (entry addr d name ns)

theorem along_append (names : List Name) (name : Name) (d : Dentry) :
    along addr ns (names ++ [name]) d = entry addr (along addr ns names d) name ns := by
  induction names generalizing d with
  | nil => rfl
  | cons first rest ih => exact ih _

theorem found_append (names : List Name) (name : Name) (d : Dentry) :
    Found addr ns (names ++ [name]) d ↔
      Found addr ns names d ∧ lookupIno (along addr ns names d) name ns ≠ 0 := by
  induction names generalizing d with
  | nil => simp [Found, along]
  | cons first rest ih => simp [Found, along, ih, and_assoc]

theorem lookupIno_congr (h : d.inode = d'.inode) (name : Name) :
    lookupIno d name ns = lookupIno d' name ns := by
  obtain ⟨hsb, hino⟩ := Prod.mk.inj h
  rw [lookupIno, lookupIno, hsb, hino]

theorem Attached.found (h : Attached ns d) (addr : Addresses) :
    Found addr ns d.names (.root d.sb) ∧ (along addr ns d.names (.root d.sb)).inode = d.inode := by
  induction d with
  | root sb => exact ⟨trivial, rfl⟩
  | child a parent name ino ih =>
    obtain ⟨hparent, -, hino, hne⟩ := h
    obtain ⟨hfound, hinode⟩ := ih hparent
    have hlookup : lookupIno (along addr ns parent.names (.root parent.sb)) name ns = _ :=
      lookupIno_congr hinode name
    simp only [Dentry.names, Dentry.sb, found_append, along_append]
    refine ⟨⟨hfound, by rwa [hlookup, hino]⟩, ?_⟩
    have hsb := (Prod.mk.inj hinode).1
    simp [Dentry.inode, Cwd.entry, Dentry.sb, Dentry.ino, hsb, hlookup, hino]

theorem isDirectory_of_lookupIno (h : lookupIno d name ns ≠ 0) : isDirectory d ns = true := by
  by_contra hfile
  have hleaf : entries d.ino (ns.fs d.sb) = [] := by
    unfold isDirectory isDir at hfile
    unfold entries
    split at hfile
    · exact absurd rfl hfile
    · rfl
  rw [lookupIno, hleaf] at h
  exact h rfl

theorem walkName_found (hname : Valid name) (hino : lookupIno (followMount d ns) name ns ≠ 0)
    (hnone : vfsLookupMount (entry addr (followMount d ns) name ns) ns = none) :
    walkName addr d name ns = .ok (entry addr (followMount d ns) name ns) := by
  have hlookup : lookupSingle addr d name ns = .ok (entry addr (followMount d ns) name ns) := by
    simp [lookupSingle, isDirectory_of_lookupIno hino, hino, entry]
  have hsame : followMount (entry addr (followMount d ns) name ns) ns =
      entry addr (followMount d ns) name ns := by
    rw [followMount, hnone]
  rw [walkName, if_neg hname.proper.1, if_neg hname.proper.2, hlookup]
  exact congrArg Except.ok hsame

theorem pathWalk_uncovered (hnames : names ≠ []) (hvalid : ∀ name ∈ names, Valid name)
    (hfound : Found addr ns names (followMount d ns))
    (huncovered : Uncovered addr ns names (followMount d ns)) :
    pathWalk addr ns names d = .ok (along addr ns names (followMount d ns)) := by
  induction names generalizing d with
  | nil => exact absurd rfl hnames
  | cons name rest ih =>
    obtain ⟨hino, hfound⟩ := hfound
    obtain ⟨hnone, huncovered⟩ := huncovered
    have hsame : followMount (entry addr (followMount d ns) name ns) ns =
        entry addr (followMount d ns) name ns := by
      rw [followMount, hnone]
    simp only [pathWalk, walkName_found (hvalid name (by simp)) hino hnone, bind, Except.bind]
    cases rest with
    | nil => simp [pathWalk, along]
    | cons next rest =>
      rw [if_neg (by simp [isDirectory_of_lookupIno hfound.1]),
        ih (by simp) (fun n hn => hvalid n (mem_cons_of_mem _ hn))
          (by rwa [hsame]) (by rwa [hsame]), hsame]
      rfl

/-! ## What fits into the buffers -/

/-- The path has no more names than the stack has places and is not cut off. -/
def Fits (d : Dentry) (ns : Namespace) : Prop :=
  d.names.length ≤ stackSize ∧ 2 * padding d ns + d.names.length + weight d.names ≤ pathSize - 1

instance (d : Dentry) (ns : Namespace) : Decidable (Fits d ns) :=
  inferInstanceAs (Decidable (_ ∧ _))

theorem bytes_fullPath (hvalid : ∀ n ∈ d.names, Valid n) :
    bytes (fullPath d ns) = weight (d.names.drop (d.names.length - stackSize)) := by
  have hjoin : bytes (join (d.names.drop (d.names.length - stackSize))) = _ :=
    bytes_join fun n hn => hvalid n (mem_of_mem_drop hn)
  have hpad := bytes_replicate (2 * padding d ns)
  rw [fullPath, bytes, countP_append]
  exact (congrArg₂ (· + ·) hpad hjoin).trans (Nat.zero_add _)

theorem padding_le (d : Dentry) (ns : Namespace) : padding d ns ≤ stackSize := by
  unfold padding
  split <;> omega

theorem fits_of_bytes (hvalid : ∀ n ∈ d.names, Valid n)
    (h : weight d.names ≤ bytes (cwdPath d ns)) : Fits d ns := by
  have hpad := padding_le d ns
  by_cases hnames : d.names = []
  · simp only [Fits, hnames, length_nil, weight_nil, stackSize, pathSize] at hpad ⊢
    omega
  have hpos := weight_pos hnames hvalid
  have hfull : bytes (fullPath d ns) = _ := bytes_fullPath hvalid
  have hcut : cwdPath d ns = (fullPath d ns).take (pathSize - 1) := by
    rw [cwdPath_eq, if_neg]
    intro hnil
    rw [cwdPath_eq, if_pos hnil] at h
    have : bytes [slash] = 0 := rfl
    omega
  have hsum : bytes (fullPath d ns) = bytes (cwdPath d ns) +
      bytes ((fullPath d ns).drop (pathSize - 1)) := by
    rw [hcut, bytes, bytes, bytes, ← countP_append, take_append_drop]
  have hstack : d.names.length ≤ stackSize := by
    by_contra hdeep
    have htake : 0 < weight (d.names.take (d.names.length - stackSize)) := by
      apply weight_pos
      · simp only [Ne, take_eq_nil_iff, not_or]
        exact ⟨by omega, hnames⟩
      · exact fun n hn => hvalid n (mem_of_mem_take hn)
    have hall := weight_append (d.names.take (d.names.length - stackSize))
      (d.names.drop (d.names.length - stackSize))
    rw [take_append_drop] at hall
    omega
  have hdrop : d.names.length - stackSize = 0 := by omega
  refine ⟨hstack, ?_⟩
  by_contra hlong
  have hlength : (fullPath d ns).length = 2 * padding d ns + d.names.length + weight d.names := by
    rw [fullPath, hdrop, drop_zero, length_append, length_join, length_replicate]
    omega
  have hlost : 0 < bytes ((fullPath d ns).drop (pathSize - 1)) := by
    have hk : pathSize - 1 < (fullPath d ns).length := by omega
    unfold fullPath at hk ⊢
    rw [hdrop, drop_zero] at hk ⊢
    exact bytes_cut hvalid hnames _ hk
  rw [hdrop, drop_zero] at hfull
  omega

theorem components_of_fits (hvalid : ∀ n ∈ d.names, Valid n) (h : Fits d ns) :
    components (cwdPath d ns) = d.names := by
  have hdrop : d.names.length - stackSize = 0 := Nat.sub_eq_zero_of_le h.1
  have hfull : fullPath d ns = replicate (2 * padding d ns) slash ++ join d.names := by
    rw [fullPath, hdrop, drop_zero]
  have hlength : (fullPath d ns).length ≤ pathSize - 1 := by
    rw [hfull, length_append, length_join, length_replicate]
    have := h.2
    omega
  rw [cwdPath_eq]
  split
  next hnil =>
    have hnames : d.names = [] := by
      have hzero := length_join d.names
      rw [hfull, append_eq_nil_iff] at hnil
      rw [hnil.2] at hzero
      rw [length_nil] at hzero
      exact length_eq_zero_iff.mp (by omega)
    rw [hnames]
    rfl
  · rw [take_of_length_le hlength, hfull]
    exact components_join hvalid _

/-! ## The inverse -/

/-- Where a lookup from the root comes out: on the root's file system or on one that is mounted
over the root, with no mount on the way that `vfs_lookup_mount` finds. -/
def InPlace (addr : Addresses) (d : Dentry) (ns : Namespace) : Prop :=
  if d.names = [] then d.sb = ns.rootSb
  else followMount (vfsGetRoot ns) ns = .root d.sb ∧ Uncovered addr ns d.names (.root d.sb)

/-- The path that `sys_getcwd` makes leads to the directory. -/
def LeadsBack (addr : Addresses) (path : List ℕ) (d : Dentry) (ns : Namespace) : Prop :=
  ∃ d', pathLookup addr (vfsGetRoot ns) path ns = .ok d' ∧ d'.inode = d.inode

theorem followMount_root (sb : ℕ) (ns : Namespace) :
    followMount (.root sb) ns = .root (followMount (.root sb) ns).sb := by
  rcases followMount_cases (.root sb) ns with ⟨-, heq⟩ | ⟨sb', -, heq⟩ <;> rw [heq] <;> rfl

theorem leadsBack_iff (hns : WellFormed ns) (hd : Attached ns d) (hdir : isDirectory d ns = true) :
    LeadsBack addr (cwdPath d ns) d ns ↔ Fits d ns ∧ InPlace addr d ns := by
  constructor
  · rintro ⟨d', hwalk, hinode⟩
    have hnames : d.names = d'.names :=
      hns.unique d d' hd (Attached.pathWalk hns (d := vfsGetRoot ns) trivial hwalk) hdir hinode.symm
    have hfits : Fits d ns := by
      apply fits_of_bytes hd.valid
      have hle := weight_pathWalk hwalk
      rw [weight_components, ← hnames] at hle
      simpa [vfsGetRoot, Dentry.names] using hle
    refine ⟨hfits, ?_⟩
    rw [pathLookup, components_of_fits hd.valid hfits] at hwalk
    unfold InPlace
    split
    next hnil =>
      rw [hnil] at hwalk
      cases hwalk
      exact (Prod.mk.inj hinode).1.symm
    next hne =>
      have hroot := followMount_root ns.rootSb ns
      obtain ⟨huncovered, hsb⟩ := uncovered_of_weight hne hd.valid hwalk (by
        rw [vfsGetRoot, hroot, ← hnames]
        simp [Dentry.names])
      have hstart : followMount (vfsGetRoot ns) ns = .root d.sb := by
        rw [vfsGetRoot, hroot, ← (Prod.mk.inj hinode).1, hsb]
        rfl
      rw [hstart] at huncovered
      exact ⟨hstart, huncovered⟩
  · rintro ⟨hfits, hplace⟩
    unfold InPlace at hplace
    rw [LeadsBack, pathLookup, components_of_fits hd.valid hfits]
    obtain ⟨hfound, hinode⟩ := hd.found addr
    split at hplace
    next hnil =>
      rw [hnil] at hinode
      refine ⟨vfsGetRoot ns, by rw [hnil]; rfl, ?_⟩
      rw [vfsGetRoot, ← hplace]
      exact hinode
    next hne =>
      obtain ⟨hstart, huncovered⟩ := hplace
      refine ⟨_, pathWalk_uncovered hne hd.valid (by rwa [hstart]) (by rwa [hstart]), ?_⟩
      rw [hstart]
      exact hinode

def pathLength (d : Dentry) (ns : Namespace) : ℕ :=
  max 1 (min (pathSize - 1) (fullPath d ns).length)

theorem length_cwdPath (d : Dentry) (ns : Namespace) : (cwdPath d ns).length = pathLength d ns := by
  rw [cwdPath_eq, pathLength]
  split
  next hnil => simp [hnil]
  next hne =>
    have := length_pos_iff.mpr hne
    rw [length_take]
    simp only [pathSize]
    omega

/-- What `sys_getcwd` must do: it stores no more than `size` bytes, and the string that it stores,
if it succeeds, leads back to the current directory. -/
def GetcwdRight (addr : Addresses) (buf size mapped : ℕ) (d : Dentry) (ns : Namespace) : Prop :=
  (sysGetcwd buf size mapped (some d) ns).2.length ≤ size ∧
    ∀ r, (sysGetcwd buf size mapped (some d) ns).1 = .ok r →
      LeadsBack addr ((sysGetcwd buf size mapped (some d) ns).2.takeWhile (· ≠ 0)) d ns

/-- When it does: either not the whole path can be stored, and no more than `size` bytes can, or
the path with its end is no longer than `size`, fits into the buffers and leads to its place. -/
def GetcwdSafe (addr : Addresses) (size mapped : ℕ) (d : Dentry) (ns : Namespace) : Prop :=
  if mapped ≤ pathLength d ns then mapped ≤ size
  else pathLength d ns + 1 ≤ size ∧ Fits d ns ∧ InPlace addr d ns

theorem nul_not_mem_cwdPath (hvalid : ∀ n ∈ d.names, Valid n) : 0 ∉ cwdPath d ns := by
  rw [cwdPath_eq]
  split
  · decide
  intro hmem
  rcases mem_append.mp (mem_of_mem_take hmem) with hmem | hmem
  · cases (mem_replicate.mp hmem).2
  · exact nul_not_mem_join (fun n hn => hvalid n (mem_of_mem_drop hn)) hmem

theorem takeWhile_nul (h : 0 ∉ path) : (path ++ [0]).takeWhile (· ≠ 0) = path := by
  rw [takeWhile_append_of_pos]
  · simp
  · intro c hc
    have hne : c ≠ 0 := fun heq => h (heq ▸ hc)
    simpa using hne

theorem sysChdir_ok {pwd : Dentry} (hns : WellFormed ns) (hpwd : Attached ns pwd)
    (h : sysChdir addr pwd path ns = .ok d) : Attached ns d ∧ isDirectory d ns = true := by
  unfold sysChdir at h
  split at h
  · cases h
  obtain ⟨found, hlookup, h⟩ := Outcome.bind_eq_ok.mp h
  split at h
  · cases h
  next hdir =>
    cases h
    refine ⟨?_, by simpa using hdir⟩
    refine Attached.pathWalk hns ?_ hlookup
    split
    · trivial
    · exact hpwd

/-- For every directory that a process can make its current one, `sys_getcwd` is right exactly
under the condition. -/
theorem getcwd_right_iff {ns : Namespace} {addr : Addresses} {pwd d : Dentry} {path : List ℕ}
    (hns : WellFormed ns) (hpwd : Attached ns pwd) (hchdir : sysChdir addr pwd path ns = .ok d)
    (addr' : Addresses) (buf size mapped : ℕ) :
    GetcwdRight addr' buf size mapped d ns ↔ GetcwdSafe addr' size mapped d ns := by
  obtain ⟨hd, hdir⟩ := sysChdir_ok hns hpwd hchdir
  have hlength : (cwdPath d ns ++ [0]).length = pathLength d ns + 1 := by
    rw [length_append, length_cwdPath]
    rfl
  unfold GetcwdRight GetcwdSafe sysGetcwd
  by_cases hmapped : mapped ≤ pathLength d ns
  · have hlt : mapped < pathLength d ns + 1 := by omega
    simp only [if_pos hlt, if_pos hmapped, length_take, hlength, Nat.min_eq_left hlt.le]
    simp
  have hge : ¬ mapped < pathLength d ns + 1 := by omega
  simp only [if_neg hge, if_neg hmapped, hlength, takeWhile_nul (nul_not_mem_cwdPath hd.valid),
    leadsBack_iff hns hd hdir]
  simp

/-- File systems with the directories `a` and `m`. -/
def sampleFs : Nodes := fun ino =>
  if ino = Vfs.rootIno then some (.dir [([97], 12), ([109], 13)])
  else if ino = 12 ∨ ino = 13 then some (.dir [])
  else none

/-- The root's mount comes last in the list. -/
def sample (mounts : List Mount) : Namespace := ⟨fun _ => sampleFs, 0, mounts ++ [⟨.root 0, 0⟩]⟩

theorem sample_entries (ino : ℕ) : entries ino sampleFs =
    if ino = Vfs.rootIno then [([97], 12), ([109], 13)] else [] := by
  unfold entries sampleFs
  split_ifs <;> rfl

theorem sample_attached {mounts : List Mount} (h : Attached (sample mounts) d) :
    (d.names = [] ∧ d.ino = Vfs.rootIno) ∨ (d.names = [[97]] ∧ d.ino = 12) ∨
      (d.names = [[109]] ∧ d.ino = 13) := by
  induction d with
  | root sb => exact .inl ⟨rfl, rfl⟩
  | child addr parent name ino ih =>
    obtain ⟨hparent, -, hino, hne⟩ := h
    have hmem : (name, ino) ∈ entries parent.ino sampleFs := by
      subst hino
      exact Vfs.mem_dirLookup hne
    rw [sample_entries] at hmem
    rcases ih hparent with ⟨hnames, hroot⟩ | ⟨-, hleaf⟩ | ⟨-, hleaf⟩
    · rw [if_pos hroot] at hmem
      simp only [mem_cons, Prod.mk.injEq, not_mem_nil, or_false] at hmem
      rcases hmem with ⟨rfl, rfl⟩ | ⟨rfl, rfl⟩ <;> simp [Dentry.names, Dentry.ino, hnames]
    all_goals simp [hleaf, Vfs.rootIno] at hmem

theorem sample_wellFormed (mounts : List Mount) : WellFormed (sample mounts) where
  valid sb ino e he hproper := by
    change e ∈ entries ino sampleFs at he
    rw [sample_entries] at he
    split at he
    · simp only [mem_cons, not_mem_nil, or_false] at he
      rcases he with rfl | rfl <;> exact ⟨hproper, by decide, by decide, by decide, by decide⟩
    · cases he
  unique d d' hd hd' _ hinode := by
    have hino : d.ino = d'.ino := (Prod.mk.inj hinode).2
    rcases sample_attached hd with ⟨h, hi⟩ | ⟨h, hi⟩ | ⟨h, hi⟩ <;>
      rcases sample_attached hd' with ⟨h', hi'⟩ | ⟨h', hi'⟩ | ⟨h', hi'⟩ <;> simp_all

/-- `chdir("a")`, then `getcwd` with a buffer of three bytes. -/
theorem getcwd_right_dir :
    GetcwdRight (fun _ _ => 7) 4096 3 4096 (.child 5 (.root 0) [97] 12) (sample []) := by
  have hchdir : sysChdir (fun _ _ => 5) (.root 0) [97] (sample []) =
      .ok (.child 5 (.root 0) [97] 12) := rfl
  have hsafe : GetcwdSafe (fun _ _ => 7) 3 4096 (.child 5 (.root 0) [97] 12) (sample []) := by
    exact ⟨by decide, by decide, rfl, rfl, trivial⟩
  have hpwd : Attached (sample []) (.root 0) := trivial
  exact (getcwd_right_iff (sample_wellFormed []) hpwd hchdir (fun _ _ => 7) 4096 3 4096).mpr hsafe

theorem getcwd_mounted (mounts : List Mount) (buf size : ℕ) :
    sysGetcwd buf size 4096 (some (.root 1)) (sample mounts) =
      (.ok buf, replicate 64 slash ++ [0]) := by
  have hpath : cwdPath (.root 1) (sample mounts) = replicate 64 slash := by
    have hfull : fullPath (.root 1) (sample mounts) = replicate 64 slash := append_nil _
    rw [cwdPath_eq, hfull, if_neg (by simp), take_of_length_le (by simp)]
  rw [sysGetcwd, hpath]
  exact if_neg (by rw [length_append, length_replicate]; decide)

/-- Two directories that `getcwd` is wrong for: the root of a file system that is mounted on `m`,
whose path leads to the root, and the root with a buffer of one byte. -/
theorem getcwd_wrong :
    (∃ ns d, WellFormed ns ∧ sysChdir (fun _ _ => 5) (vfsGetRoot ns) [109] ns = .ok d ∧
      (sysGetcwd 4096 4096 4096 (some d) ns).1 = .ok 4096 ∧
      ¬ GetcwdRight (fun _ _ => 5) 4096 4096 4096 d ns) ∧
    ∃ ns d, WellFormed ns ∧ sysChdir (fun _ _ => 5) (vfsGetRoot ns) [slash] ns = .ok d ∧
      sysGetcwd 4096 1 4096 (some d) ns = (.ok 4096, [slash, 0]) := by
  have hpath := getcwd_mounted [⟨.child 5 (.root 0) [109] 13, 1⟩] 4096 4096
  refine ⟨⟨sample [⟨.child 5 (.root 0) [109] 13, 1⟩], .root 1, sample_wellFormed _, rfl,
    by rw [hpath], ?_⟩, sample [], .root 0, sample_wellFormed _, rfl, rfl⟩
  rintro ⟨-, hleads⟩
  obtain ⟨d', hlookup, hinode⟩ := hleads 4096 (by rw [hpath])
  have hcomponents : components (replicate 64 slash ++ join []) = [] :=
    components_join (by simp) 64
  rw [hpath, takeWhile_nul (by simp), pathLookup] at hlookup
  rw [join_nil, append_nil] at hcomponents
  cases hlookup
  exact absurd hinode (by decide)

/-! ## The way back from a subdirectory

A walk enters a file system that is mounted on a directory, but the parent of its root is this root,
so that `..` does not lead out of it. -/

open Exec (slash dot)

open Vfs (Name components componentsLoop_append skipSlashes_append rootIno Valid)

/-- For a subdirectory, `name/..` leads back to the directory, and `..` stays where it is at the root
of the root file system only. -/
def ParentInverse (addr : Addresses) (d : Dentry) (name : Name) (ns : Namespace) : Prop :=
  (∃ d', pathLookup addr d (name ++ [slash, dot, dot]) ns = .ok d' ∧ d'.inode = d.inode) ∧
    (pathLookup addr d [dot, dot] ns = .ok d ↔ d = vfsGetRoot ns)

/-- What is mounted on a name in a directory. -/
def mountedOn (d : Dentry) (name : Name) (ns : Namespace) : Option Mount :=
  ns.mounts.find? fun m => m.mountpoint.parent = d ∧ m.mountpoint.name = name

/-- No file system but the one whose root the directory is has been mounted on the name, or without
such a mount on the directory, and the directory is not the root of a mounted file system. -/
def NoMounts (d : Dentry) (name : Name) (ns : Namespace) : Prop :=
  (match mountedOn (followMount d ns) name ns with
    | some mnt => (mnt.sb, rootIno) = d.inode
    | none => (followMount d ns).inode = d.inode) ∧
  ∀ sb, d = .root sb → sb = ns.rootSb

theorem components_dots (h : Valid name) :
    components (name ++ [slash, dot, dot]) = [name, [dot, dot]] := by
  rw [components, skipSlashes_append h, length_append]
  simp only [length_cons, length_nil, ← Nat.add_assoc]
  rw [componentsLoop_append h (.inr rfl)]
  rfl

theorem pathLookup_dots (d : Dentry) : pathLookup addr d [dot, dot] ns = .ok d.parent := rfl

theorem pathLookup_back (hname : Valid name) (hnext : lookupSingle addr d name ns = .ok next) :
    pathLookup addr d (name ++ [slash, dot, dot]) ns =
      if isDirectory (followMount next ns) ns then .ok (followMount next ns).parent
      else .error (-enotdir) := by
  have hwalk : walkName addr d name ns = .ok (followMount next ns) := by
    rw [walkName, if_neg hname.proper.1, if_neg hname.proper.2, hnext]
    rfl
  rw [pathLookup, components_dots hname, pathWalk, hwalk]
  change (if _ then _ else Except.ok _) = _
  cases isDirectory (followMount next ns) ns <;> rfl

/-- For every directory and every name of a subdirectory, the law holds exactly without mounts. -/
theorem parent_inverse_iff (hname : Valid name) (hd : isDirectory d ns = true)
    (hnext : lookupSingle addr d name ns = .ok next) (hdir : isDirectory next ns = true) :
    ParentInverse addr d name ns ↔ NoMounts d name ns := by
  obtain ⟨rfl, -⟩ := lookupSingle_ok hnext
  have hstay : (pathLookup addr d [dot, dot] ns = .ok d ↔ d = vfsGetRoot ns) ↔
      ∀ sb, d = .root sb → sb = ns.rootSb := by
    rw [pathLookup_dots, Except.ok.injEq]
    cases d with
    | root sb => simp [Dentry.parent, vfsGetRoot]
    | child a parent name ino =>
      have hne : parent ≠ .child a parent name ino := fun heq => by
        have hsize := congrArg sizeOf heq
        simp only [Dentry.child.sizeOf_spec] at hsize
        omega
      simp [Dentry.parent, vfsGetRoot, hne]
  refine and_congr ?_ hstay
  have hmount : vfsLookupMount (entry addr (followMount d ns) name ns) ns =
      mountedOn (followMount d ns) name ns := rfl
  rw [pathLookup_back hname hnext, ← hmount]
  cases hm : vfsLookupMount (entry addr (followMount d ns) name ns) ns with
  | none =>
    rw [followMount, hm, if_pos hdir]
    simp [entry, Dentry.parent]
  | some mnt =>
    rw [show followMount (entry addr (followMount d ns) name ns) ns = .root mnt.sb by
      rw [followMount, hm]]
    constructor
    · rintro ⟨d', hd', heq⟩
      split at hd'
      · cases hd'
        exact heq
      · cases hd'
    · intro heq
      have hroot : isDirectory (.root mnt.sb) ns = isDirectory d ns := by
        unfold isDirectory
        rw [show (Dentry.root mnt.sb).ino = d.ino from congrArg Prod.snd heq,
          show (Dentry.root mnt.sb).sb = d.sb from congrArg Prod.fst heq]
      exact ⟨.root mnt.sb, by rw [hroot, if_pos hd]; rfl, heq⟩

theorem parent_inverse_dir : ParentInverse (fun _ _ => 5) (.root 0) [97] (sample []) :=
  (parent_inverse_iff ⟨⟨by decide, by decide⟩, by decide, by decide, by decide, by decide⟩ rfl rfl
    rfl).mpr ⟨rfl, fun _ h => (Dentry.root.inj h).symm⟩

/-- From a directory with something mounted on it, `..` stays in the mounted file system. -/
theorem parent_inverse_fails : ∃ ns d next, WellFormed ns ∧
    pathLookup (fun _ _ => 5) (vfsGetRoot ns) [slash] ns = .ok d ∧ isDirectory d ns = true ∧
    lookupSingle (fun _ _ => 5) d [109] ns = .ok next ∧ isDirectory next ns = true ∧
    pathLookup (fun _ _ => 5) d [109, slash, dot, dot] ns = .ok (.root 1) ∧
    (Dentry.root 1).inode ≠ d.inode :=
  ⟨sample [⟨.child 5 (.root 0) [109] 13, 1⟩], .root 0, .child 5 (.root 0) [109] 13,
    sample_wellFormed _, rfl, rfl, rfl, rfl, rfl, by decide⟩

end NoobKernel.Cwd
