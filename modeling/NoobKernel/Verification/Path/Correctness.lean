import NoobKernel.Verification.Exec.Open
import Mathlib.Algebra.BigOperators.Pi

/-! # The moves of a walk

A walk over a path moves down by name and up by `..`. Only the moves down change references. -/

namespace NoobKernel.Exec

open List

variable {s s' : State} {d : ℕ}

/-! ## References -/

abbrev one (d : ℕ) : ℕ → ℤ := Pi.single d 1

theorem addRef_refs (d : ℕ) (n : ℤ) (s : Life.Kernel) :
    (Life.addRef d n s).refs = s.refs + Pi.single d n := by
  funext a
  by_cases h : a = d
  · subst h
    simp [Life.addRef]
  · simp [Life.addRef, h]

@[simp] theorem dentryGet_refs (d : ℕ) (s : State) : (dentryGet d s).refs = s.refs + one d :=
  addRef_refs d 1 s.toKernel

@[simp] theorem dentryPut_refs (d : ℕ) (s : State) : (dentryPut d s).refs = s.refs - one d := by
  have h := addRef_refs d (-1) s.toKernel
  rw [Pi.single_neg, ← sub_eq_add_neg] at h
  exact h

@[simp] theorem dentryGet_ns (d : ℕ) (s : State) : (dentryGet d s).ns = s.ns := rfl

@[simp] theorem dentryPut_ns (d : ℕ) (s : State) : (dentryPut d s).ns = s.ns := rfl

theorem followMount_refs (d : ℕ) (s : State) :
    (followMount d s).2.refs = s.refs - one d + one (followMount d s).1 := by
  unfold followMount
  split <;> simp

@[simp] theorem followMount_ns (d : ℕ) (s : State) : (followMount d s).2.ns = s.ns := by
  unfold followMount
  split <;> rfl

theorem lookupSingle_cases (base : ℕ) (s : State) :
    (∃ e s', lookupSingle base s = (.error e, s') ∧ s'.refs = s.refs ∧ s'.ns = s.ns) ∨
      ∃ d s', lookupSingle base s = (.ok d, s') ∧ s'.refs = s.refs + one d ∧ s'.ns = s.ns := by
  unfold lookupSingle
  split
  · exact Or.inl ⟨_, s, rfl, rfl, rfl⟩
  split
  · exact Or.inl ⟨_, s, rfl, rfl, rfl⟩
  · exact Or.inl ⟨_, _, rfl, rfl, rfl⟩
  · exact Or.inr ⟨_, _, rfl, by simp, rfl⟩

/-! ## Moves -/

/-- A step of a walk, from one dentry to another. -/
inductive Move where
  | up (child parent : ℕ)
  | down (dir next : ℕ)
deriving DecidableEq, Repr

/-- How often each dentry is entered by moves up, less how often it is left by them. -/
def netUp : List Move → ℕ → ℤ
  | [] => 0
  | .up child parent :: ms => one parent - one child + netUp ms
  | .down _ _ :: ms => netUp ms

/-- The same for moves down. -/
def netDown : List Move → ℕ → ℤ
  | [] => 0
  | .up _ _ :: ms => netDown ms
  | .down dir next :: ms => one next - one dir + netDown ms

/-- How a walk ends: it arrives at a dentry, or something is not found in it, or it is followed by
a name but no directory. -/
inductive Ending where
  | found (d : ℕ)
  | missing (d : ℕ)
  | blocked (d : ℕ)
deriving DecidableEq, Repr

def Ending.dentry : Ending → ℕ
  | found d | missing d | blocked d => d

/-- The move for a component that leads from one dentry to the next. -/
def moveOf (name : List ℕ) (dentry next : ℕ) : List Move :=
  if name = [dot] then []
  else if name = [dot, dot] then [.up dentry next]
  else [.down dentry next]

/-- The moves of the loop of `vfs_path_walk` and how it ends. -/
def course : ℕ → List ℕ → ℕ → State → List Move × Ending
  | 0, _, dentry, _ => ([], .found dentry)
  | fuel + 1, path, dentry, s =>
    match walkName (getName path) dentry s with
    | (.error _, _) => ([], .missing dentry)
    | (.ok next, s) =>
      let move := moveOf (getName path) dentry next
      let path := skipSlashes (path.drop (getName path).length)
      if path = [] then (move, .found next)
      else if s.ns.isDir next = false then (move, .blocked next)
      else
        let r := course fuel path next s
        (move ++ r.1, r.2)

@[simp] theorem netUp_append (ms ms' : List Move) : netUp (ms ++ ms') = netUp ms + netUp ms' := by
  induction ms with
  | nil => simp [netUp]
  | cons m ms ih => cases m <;> simp [netUp, ih, add_assoc]

@[simp] theorem netDown_append (ms ms' : List Move) :
    netDown (ms ++ ms') = netDown ms + netDown ms' := by
  induction ms with
  | nil => simp [netDown]
  | cons m ms ih => cases m <;> simp [netDown, ih, add_assoc]

theorem walkName_spec (name : List ℕ) (d : ℕ) (s : State) :
    (∃ e s', walkName name d s = (.error e, s') ∧ s'.refs = s.refs ∧ s'.ns = s.ns) ∨
      ∃ next s', walkName name d s = (.ok next, s') ∧ s'.ns = s.ns ∧
        s'.refs = s.refs + netDown (moveOf name d next) ∧
        one d + netUp (moveOf name d next) + netDown (moveOf name d next) = one next ∧
        ∀ child parent, Move.up child parent ∈ moveOf name d next → parent = s.ns.parent child := by
  unfold walkName moveOf
  split
  · exact Or.inr ⟨d, s, rfl, rfl, by simp [netDown], by simp [netDown, netUp], by simp⟩
  split
  · refine Or.inr ⟨s.ns.parent d, s, rfl, rfl, by simp [netDown], ?_, by simp⟩
    simp [netDown, netUp]
  rcases lookupSingle_cases d s with ⟨e, s', heq, hrefs, hns⟩ | ⟨next, s', heq, hrefs, hns⟩
  · rw [heq]
    exact Or.inl ⟨e, s', rfl, hrefs, hns⟩
  rw [heq]
  refine Or.inr ⟨_, _, rfl, by simp [hns], ?_, ?_, by simp⟩
  · simp only [dentryPut_refs, followMount_refs, hrefs, netDown]
    abel
  · simp only [netDown, netUp]
    abel

/-- What the loop of `vfs_path_walk` does to the references. -/
structure Follows (d : ℕ) (s : State) (ms : List Move) (ending : Ending)
    (r : Except Err ℕ × State) : Prop where
  ns : r.2.ns = s.ns
  ends : one d + netUp ms + netDown ms = one ending.dentry
  parent : ∀ child parent, Move.up child parent ∈ ms → parent = s.ns.parent child
  result : (∃ d', ending = .found d' ∧ r.1 = .ok d' ∧ r.2.refs = s.refs + netDown ms) ∨
    (∃ d' e, ending = .missing d' ∧ r.1 = .error e ∧ r.2.refs = s.refs + netDown ms) ∨
    ∃ d' e, ending = .blocked d' ∧ r.1 = .error e ∧ r.2.refs = s.refs + netDown ms - one d'

theorem walkLoop_follows (fuel : ℕ) : ∀ path d s,
    Follows d s (course fuel path d s).1 (course fuel path d s).2 (walkLoop fuel path d s) := by
  induction fuel with
  | zero =>
    intro path d s
    exact ⟨rfl, by simp [course, netUp, netDown, Ending.dentry], by simp [course],
      Or.inl ⟨d, rfl, rfl, by simp [course, netDown, walkLoop]⟩⟩
  | succ fuel ih =>
    intro path d s
    unfold course walkLoop
    rcases walkName_spec (getName path) d s with
      ⟨e, s', heq, hrefs, hns⟩ | ⟨next, s', heq, hns, hrefs, hends, hup⟩
    · rw [heq]
      exact ⟨hns, by simp [netUp, netDown, Ending.dentry], by simp,
        Or.inr (Or.inl ⟨d, e, rfl, rfl, by simp [netDown, hrefs]⟩)⟩
    rw [heq]
    dsimp only
    split
    · exact ⟨hns, hends, hup, Or.inl ⟨next, rfl, rfl, hrefs⟩⟩
    split
    · exact ⟨hns, hends, hup, Or.inr (Or.inr ⟨next, _, rfl, rfl, by simp [hrefs]⟩)⟩
    obtain ⟨hns', hends', hup', hres⟩ :=
      ih (skipSlashes (path.drop (getName path).length)) next s'
    refine ⟨hns'.trans hns, ?_, ?_, ?_⟩
    · rw [netUp_append, netDown_append, ← hends', ← hends]
      abel
    · intro child parent hm
      rcases mem_append.mp hm with hm | hm
      · exact hup child parent hm
      · rw [← hns]
        exact hup' child parent hm
    · simpa only [netDown_append, hrefs, add_assoc] using hres

/-! ## The references of a path

`vfs_path_walk` gives back the reference to a dentry that it leaves by name, but takes none to a
dentry that it enters by `..`. After an error `vfs_path_lookup` gives back a reference to the start
of the walk, which the walk has given back already if it has left by name. `vfs_path_parent` never
gives back the one to the start of its walk. -/

open Library

variable {s s' : State} {E : ℕ → Prop} {base : Option ℕ} {path : List ℕ} {b : ℕ}

/-! ## Lookups -/

/-- The moves of `vfs_path_lookup` from a dentry and how they end. -/
def lookupCourse (base : ℕ) (path : List ℕ) (s : State) : List Move × Ending :=
  course (skipSlashes path).length (skipSlashes path) base (dentryGet base s)

theorem pathWalk_follows (base : ℕ) (path : List ℕ) (s : State) :
    Follows base (dentryGet base s) (lookupCourse base path s).1 (lookupCourse base path s).2
      (pathWalk base path (dentryGet base s)) := by
  have h := walkLoop_follows (skipSlashes path).length (skipSlashes path) base (dentryGet base s)
  unfold pathWalk lookupCourse
  dsimp only
  split
  next hnil =>
    rw [hnil] at h ⊢
    exact h
  · exact h

/-- The dentries that exist before a call: among them are the parents of each, and a dentry that
does not exist has no references. -/
structure Existing (E : ℕ → Prop) (base : Option ℕ) (s : State) : Prop where
  base : ∀ b, base.or s.root = some b → E b
  parent : ∀ d, E d → E (s.ns.parent d)
  fresh : ∀ d, ¬ E d → s.refs d = 0

/-- The dentry that is returned has one more reference, and all others that existed before have
as many as before. -/
def LookupKeeps (E : ℕ → Prop) (s : State) : Except Err ℕ × State → Prop
  | (.ok r, s') => ∀ d, E d ∨ d = r → s'.refs d = s.refs d + one r d
  | (.error _, s') => ∀ d, E d → s'.refs d = s.refs d

/-- The moves leave the references as they should be. -/
def Balanced (E : ℕ → Prop) : List Move × Ending → Prop
  | (ms, .found r) => ∀ d, E d ∨ d = r → netUp ms d = 0
  | (ms, .missing _) => ∀ d, E d → netDown ms d = 0
  | (_, .blocked _) => False

theorem sum_netUp_nonneg (S : Finset ℕ) (ms : List Move)
    (hin : ∀ child parent, Move.up child parent ∈ ms → child ∈ S → parent ∈ S) :
    0 ≤ ∑ d ∈ S, netUp ms d := by
  induction ms with
  | nil => simp [netUp]
  | cons m ms ih =>
    have hrest := ih fun child parent hm => hin child parent (mem_cons_of_mem m hm)
    cases m with
    | down dir next => exact hrest
    | up child parent =>
      have hstep := hin child parent mem_cons_self
      have hsum : ∀ a, ∑ d ∈ S, one a d = if a ∈ S then 1 else 0 := by
        simp [one, Pi.single_apply]
      simp only [netUp, Pi.add_apply, Pi.sub_apply, Finset.sum_add_distrib,
        Finset.sum_sub_distrib, hsum]
      by_cases hchild : child ∈ S
      · simpa [hchild, hstep hchild] using hrest
      · simp only [hchild, if_false]
        split <;> omega

def Move.ends : Move → List ℕ
  | .up child parent => [child, parent]
  | .down _ _ => []

/-- A walk that is stopped by the test for a directory takes a reference from some dentry. -/
theorem exists_lost (hbase : E b) (ms : List Move)
    (hin : ∀ child parent, Move.up child parent ∈ ms → E child → E parent) :
    ∃ d, E d ∧ one b d + netUp ms d ≠ 0 := by
  classical
  by_contra hnone
  push Not at hnone
  let S := (b :: ms.flatMap Move.ends).toFinset.filter E
  have hmem : b ∈ S := by simp [S, hbase]
  have hclosed : ∀ child parent, Move.up child parent ∈ ms → child ∈ S → parent ∈ S := by
    intro child parent hm hchild
    have hparent := hin child parent hm (Finset.mem_filter.mp hchild).2
    simp only [S, Finset.mem_filter, mem_toFinset]
    exact ⟨mem_cons_of_mem b (mem_flatMap.mpr ⟨_, hm, by simp [Move.ends]⟩), hparent⟩
  have hsum : ∑ d ∈ S, (one b d + netUp ms d) = 0 :=
    Finset.sum_eq_zero fun d hd => hnone d (Finset.mem_filter.mp hd).2
  have hone : ∑ d ∈ S, one b d = 1 := by simp [one, Pi.single_apply, hmem]
  have hnonneg := sum_netUp_nonneg S ms hclosed
  rw [Finset.sum_add_distrib, hone] at hsum
  omega

theorem pathLookup_keeps_iff (h : Existing E base s) (hb : base.or s.root = some b) :
    LookupKeeps E s (pathLookup base path s) ↔ Balanced E (lookupCourse b path s) := by
  obtain ⟨hns, hends, hup, hres⟩ := pathWalk_follows b path s
  generalize lookupCourse b path s = c at hends hup hres ⊢
  obtain ⟨ms, ending⟩ := c
  unfold pathLookup
  rw [hb]
  dsimp only at hends hup hres ⊢
  generalize pathWalk b path (dentryGet b s) = r at hns hres ⊢
  obtain ⟨res, s'⟩ := r
  rcases hres with ⟨r, rfl, rfl, hrefs⟩ | ⟨d, e, rfl, rfl, hrefs⟩ | ⟨d, e, rfl, rfl, hrefs⟩
  · -- what the walk has not given back is what the moves up have skipped
    have hall : s'.refs = s.refs + one r - netUp ms := by
      rw [hrefs, dentryGet_refs, ← (show _ = one r from hends)]
      abel
    refine forall₂_congr fun d _ => ?_
    rw [hall, Pi.sub_apply, Pi.add_apply]
    omega
  · have hall : (dentryPut b s').refs = s.refs + netDown ms := by
      rw [dentryPut_refs, hrefs, dentryGet_refs]
      abel
    refine forall₂_congr fun d _ => ?_
    rw [hall, Pi.add_apply]
    omega
  · refine ⟨fun hkeeps => ?_, False.elim⟩
    have hall : (dentryPut b s').refs = s.refs - (one b + netUp ms) := by
      rw [dentryPut_refs, hrefs, dentryGet_refs, ← (show _ = one d from hends)]
      abel
    obtain ⟨a, ha, hne⟩ := exists_lost (h.base b hb) ms fun child parent hm hchild => by
      rw [hup child parent hm]
      exact h.parent child hchild
    have hsame := hkeeps a ha
    rw [hall, Pi.sub_apply, Pi.add_apply] at hsame
    omega

/-! ## Parents -/

/-- `vfs_path_parent` adds one reference, to the directory that it returns, or none. -/
def ParentKeeps (s : State) : Except Err Parent × State → Prop
  | (.ok p, s') => s'.refs = s.refs + one p.dentry
  | (.error _, s') => s'.refs = s.refs

/-- No component is looked up: there is at most one, or the first is not found. -/
def Stays (base : ℕ) (path : List ℕ) (s : State) : Prop :=
  let path := skipSlashes path
  skipSlashes (path.drop (getName path).length) = [] ∨
    ∃ e s', lookupSingle base (dentryGet base s) = (.error e, s')

/-- A move of `vfs_path_parent` from `current` to the dentry that is found. -/
def parentStep (base current next : ℕ) (s : State) : State :=
  let r := followMount next s
  if current ≠ base then dentryPut current r.2 else r.2

theorem parentStep_refs (base current next : ℕ) (s : State) :
    (parentStep base current next s).refs = s.refs - one next + one (followMount next s).1 -
      one current + if current = base then one base else 0 := by
  unfold parentStep
  by_cases h : current = base <;> simp [h, followMount_refs]

theorem parentLoop_refs (base fuel : ℕ) : ∀ path current s, ∃ (k : ℕ) (cur : ℕ),
    (∃ name s', parentLoop base fuel path current s = (.ok (cur, name), s') ∧
      s'.refs = s.refs + one cur - one current + k • one base) ∨
    ∃ e s', parentLoop base fuel path current s = (.error e, s') ∧
      s'.refs = s.refs + one cur - one current + k • one base - one base := by
  induction fuel with
  | zero =>
    intro path current s
    exact ⟨0, current, Or.inl ⟨[], s, rfl, by simp⟩⟩
  | succ fuel ih =>
    intro path current s
    unfold parentLoop
    dsimp only
    split
    · exact ⟨0, current, Or.inl ⟨_, s, rfl, by simp⟩⟩
    rcases lookupSingle_cases current s with ⟨e, s', heq, hrefs, -⟩ | ⟨next, s', heq, hrefs, -⟩
    · rw [heq]
      exact ⟨0, current, Or.inr ⟨e, _, rfl, by simp [hrefs]⟩⟩
    rw [heq]
    obtain ⟨k, cur, hrun⟩ := ih (skipSlashes (path.drop (getName path).length))
      (followMount next s').1 (parentStep base current next s')
    refine ⟨k + if current = base then 1 else 0, cur, ?_⟩
    have hk : (k + if current = base then 1 else 0) • one base =
        k • one base + if current = base then one base else 0 := by
      split
      · rw [add_nsmul, one_nsmul]
      · rw [add_zero, add_zero]
    refine hrun.imp (Exists.imp fun name => Exists.imp fun s'' => And.imp_right fun h => ?_)
      (Exists.imp fun e => Exists.imp fun s'' => And.imp_right fun h => ?_)
    all_goals
      rw [h, parentStep_refs, hrefs, hk]
      abel

theorem one_add_ne_zero (cur base k : ℕ) : one cur + k • one base ≠ 0 := by
  intro hzero
  have hcur := congrFun hzero cur
  have hnonneg : 0 ≤ (k • one base) cur := by
    exact nsmul_nonneg (by by_cases h : cur = base <;> simp [one, h]) k
  rw [Pi.add_apply, one, Pi.single_eq_same, Pi.zero_apply] at hcur
  omega

theorem taken_eq_iff {k cur : ℕ} (refs : ℕ → ℤ) (hcur : k = 0 → cur = b) :
    refs + one cur + k • one b - one b = refs ↔ k = 0 := by
  cases k with
  | zero => simp [hcur rfl]
  | succ k =>
    have hsum : refs + one cur + (k + 1) • one b - one b = refs + (one cur + k • one b) := by
      rw [succ_nsmul]
      abel
    rw [hsum, add_eq_left]
    exact iff_of_false (one_add_ne_zero cur b k) (Nat.succ_ne_zero k)

theorem parentLoop_stays (b : ℕ) (path : List ℕ) (s : State) : ∃ k cur : ℕ,
    (Stays b path s ↔ k = 0) ∧ (k = 0 → cur = b) ∧
    ((∃ name s', parentLoop b (skipSlashes path).length (skipSlashes path) b (dentryGet b s) =
      (.ok (cur, name), s') ∧ s'.refs = s.refs + one cur + k • one b) ∨
    ∃ e s', parentLoop b (skipSlashes path).length (skipSlashes path) b (dentryGet b s) =
      (.error e, s') ∧ s'.refs = s.refs + one cur + k • one b - one b) := by
  unfold Stays
  cases hpath : skipSlashes path with
  | nil => exact ⟨0, b, by simp [skipSlashes], fun _ => rfl, Or.inl ⟨[], _, rfl, by simp⟩⟩
  | cons c rest =>
    rw [length_cons, parentLoop]
    by_cases hlast : skipSlashes ((c :: rest).drop (getName (c :: rest)).length) = []
    · rw [if_pos hlast]
      exact ⟨0, b, iff_of_true (Or.inl hlast) rfl, fun _ => rfl, Or.inl ⟨_, _, rfl, by simp⟩⟩
    rw [if_neg hlast]
    rcases lookupSingle_cases b (dentryGet b s) with
      ⟨e, s', heq, hrefs, -⟩ | ⟨next, s', heq, hrefs, -⟩
    · rw [heq]
      exact ⟨0, b, iff_of_true (Or.inr ⟨e, s', rfl⟩) rfl, fun _ => rfl,
        Or.inr ⟨e, _, rfl, by simp [hrefs]⟩⟩
    rw [heq]
    obtain ⟨k, cur, hrun⟩ := parentLoop_refs b rest.length
      (skipSlashes ((c :: rest).drop (getName (c :: rest)).length)) (followMount next s').1
      (parentStep b b next s')
    refine ⟨k + 1, cur, iff_of_false ?_ (Nat.succ_ne_zero k), fun h => absurd h (Nat.succ_ne_zero k),
      hrun.imp (Exists.imp fun name => Exists.imp fun s'' => And.imp_right fun h => ?_)
        (Exists.imp fun e => Exists.imp fun s'' => And.imp_right fun h => ?_)⟩
    · rintro (hnil | ⟨e, s1, herr⟩)
      · exact hlast hnil
      · cases herr
    all_goals
      rw [h, parentStep_refs, hrefs, dentryGet_refs, if_pos rfl, succ_nsmul]
      abel

theorem pathParent_keeps_iff (path : List ℕ) (hb : base.or s.root = some b) :
    ParentKeeps s (pathParent base path s) ↔ Stays b path s := by
  obtain ⟨k, cur, hstays, hcur, hloop⟩ := parentLoop_stays b path s
  rw [hstays, pathParent, hb]
  dsimp only
  rcases hloop with ⟨name, s', heq, hrefs⟩ | ⟨e, s', heq, hrefs⟩
  · rw [heq]
    dsimp only
    generalize Life.kmalloc (name.length + 1) s'.obj = r
    obtain ⟨res, obj⟩ := r
    cases res with
    | none =>
      -- the copy of the last component fails
      have hput : (dentryPut b { s' with obj }).refs = s.refs + one cur + k • one b - one b := by
        rw [dentryPut_refs, ← hrefs]
      rw [ParentKeeps, hput]
      exact taken_eq_iff s.refs hcur
    | some copy =>
      have hkept := taken_eq_iff (b := b) (k := k) (s.refs + one cur) fun _ => rfl
      rwa [add_right_comm, add_sub_cancel_right, ← hrefs] at hkept
  · rw [heq, ParentKeeps, hrefs]
    exact taken_eq_iff s.refs hcur

/-! ## Both -/

/-- The references are right exactly if the walk is balanced and the one to the parent stays. -/
theorem path_references_iff (E : ℕ → Prop) (base : Option ℕ) (path : List ℕ) (s : State)
    (h : Existing E base s) :
    (LookupKeeps E s (pathLookup base path s) ↔
      ∀ b, base.or s.root = some b → Balanced E (lookupCourse b path s)) ∧
    (ParentKeeps s (pathParent base path s) ↔ ∀ b, base.or s.root = some b → Stays b path s) := by
  cases hb : base.or s.root with
  | none =>
    refine ⟨iff_of_true ?_ nofun, iff_of_true ?_ nofun⟩
    · rw [pathLookup, hb]
      exact fun _ _ => rfl
    · rw [pathParent, hb]
      rfl
  | some b =>
    simp only [Option.some.injEq, forall_eq']
    exact ⟨pathLookup_keeps_iff h hb, pathParent_keeps_iff path hb⟩

/-- A process in a directory of the root, where the next name that is looked up leads to a new
dentry. -/
def someDirectory : State where
  toKernel := ⟨⟨fun _ _ => 0, fun _ => false, []⟩, ⟨fun _ => false, [10]⟩,
    ⟨fun _ => none, fun _ => none⟩, fun d => if d = 7 ∨ d = 8 then 1 else 0, some 7, 0⟩
  ns := ⟨fun _ => true, fun d => if d = 8 then 7 else d, fun _ => none⟩
  lookups := [.ok 9]
  opens := []

theorem someDirectory_existing : Existing (fun d => d = 7 ∨ d = 8) (some 8) someDirectory := by
  refine ⟨?_, ?_, fun d hd => if_neg hd⟩
  · rintro b ⟨⟩
    exact Or.inr rfl
  · rintro d (rfl | rfl) <;> exact Or.inl rfl

/-- The references for a path of one component are right. -/
theorem path_references_single :
    Existing (fun d => d = 7 ∨ d = 8) (some 8) someDirectory ∧
    LookupKeeps (fun d => d = 7 ∨ d = 8) someDirectory (pathLookup (some 8) [97] someDirectory) ∧
    ParentKeeps someDirectory (pathParent (some 8) [97] someDirectory) := by
  obtain ⟨hlookup, hparent⟩ := path_references_iff _ _ [97] _ someDirectory_existing
  refine ⟨someDirectory_existing, hlookup.mpr ?_, hparent.mpr ?_⟩
  · rintro b ⟨⟩
    exact fun d _ => rfl
  · rintro b ⟨⟩
    exact Or.inl (by decide)

/-- The references for `../a`, for `a/b` without `b`, and for the parent of `a/b`. -/
theorem path_references_lost : ∃ E s, Existing E (some 8) s ∧
    ¬ LookupKeeps E s (pathLookup (some 8) [46, 46, 47, 97] s) ∧
    ¬ LookupKeeps E s (pathLookup (some 8) [97, 47, 98] s) ∧
    ¬ ParentKeeps s (pathParent (some 8) [97, 47, 98] s) := by
  refine ⟨_, _, someDirectory_existing, fun h => ?_, fun h => ?_, fun h => ?_⟩
  · exact absurd (h 7 (Or.inl (Or.inl rfl))) (by decide)
  · exact absurd (h 8 (Or.inr rfl)) (by decide)
  · exact absurd (congrFun h 8) (by decide)

/-! ## The references of an open file

`vfs_path_lookup` returns a dentry with a reference, and so does `dentry_alloc`. `file_open` takes a
second one for the file. Closing the file gives that one back; nothing gives back the first. -/

open Outcome

variable {f : OpenFile} {flags n : ℕ} {new : Except Err ℕ} {kind : Files.Kind} {ops : List FileOp}

/-! ## Paths without moves up -/

def components : ℕ → List ℕ → List (List ℕ)
  | 0, _ => []
  | fuel + 1, path =>
    let rest := skipSlashes (path.drop (getName path).length)
    getName path :: if rest = [] then [] else components fuel rest

def Ordinary (path : List ℕ) : Prop :=
  [dot, dot] ∉ components (skipSlashes path).length (skipSlashes path)

instance (path : List ℕ) : Decidable (Ordinary path) := inferInstanceAs (Decidable (_ ∉ _))

theorem netUp_moveOf {name : List ℕ} (d next : ℕ) (h : name ≠ [dot, dot]) :
    netUp (moveOf name d next) = 0 := by
  by_cases hdot : name = [dot]
  · simp [moveOf, hdot, netUp]
  · simp [moveOf, hdot, h, netUp]

theorem netUp_course (fuel : ℕ) : ∀ path d s, [dot, dot] ∉ components fuel path →
    netUp (course fuel path d s).1 = 0 := by
  induction fuel with
  | zero =>
    intro path d s _
    rfl
  | succ fuel ih =>
    intro path d s hnot
    rw [components, List.mem_cons, not_or] at hnot
    obtain ⟨hname, hrest⟩ := hnot
    unfold course
    split
    · rfl
    next next s' _ =>
      have hmove := netUp_moveOf d next (Ne.symm hname)
      dsimp only
      split
      · exact hmove
      next hne =>
        rw [if_neg hne] at hrest
        split
        · exact hmove
        · rw [netUp_append, hmove, ih _ _ _ hrest, add_zero]

theorem pathLookup_ok (h : pathLookup base path s = (.ok d, s')) :
    ∃ b, s'.refs = s.refs + one d - netUp (lookupCourse b path s).1 := by
  unfold pathLookup at h
  cases hb : base.or s.root with
  | none =>
    rw [hb] at h
    cases h
  | some b =>
    obtain ⟨-, hends, -, hres⟩ := pathWalk_follows b path s
    rw [hb] at h
    dsimp only at h
    generalize pathWalk b path (dentryGet b s) = r at h hres
    obtain ⟨res, s1⟩ := r
    cases res with
    | error e => cases h
    | ok r =>
      cases h
      rcases hres with ⟨d', hfound, ⟨⟩, hrefs⟩ | ⟨_, _, _, ⟨⟩, _⟩ | ⟨_, _, _, ⟨⟩, _⟩
      refine ⟨b, ?_⟩
      rw [hfound] at hends
      rw [hrefs, dentryGet_refs, ← (show _ = one d from hends)]
      abel

/-- A lookup along an ordinary path takes one reference, to the dentry that it finds. -/
theorem pathLookup_refs (hpath : Ordinary path) (h : pathLookup base path s = (.ok d, s')) :
    s'.refs = s.refs + one d := by
  obtain ⟨b, hrefs⟩ := pathLookup_ok h
  have hup : netUp (lookupCourse b path s).1 = 0 := netUp_course _ _ _ _ hpath
  rw [hrefs, hup, sub_zero]

/-! ## Opening -/

theorem openDentry_ok (h : openDentry d s = (.ok f, s')) :
    f.dentry = d ∧ s'.refs = s.refs + one d ∧ s'.files.file f.file = some ⟨1, .other⟩ := by
  unfold openDentry fileOpen at h
  rcases hopens : s.opens with - | ⟨e | ⟨file, reads⟩, opens⟩
  · rw [hopens] at h
    cases h
  · rw [hopens] at h
    cases h
  rw [hopens] at h
  dsimp only at h
  by_cases hfree : s.files.file file = none
  · rw [if_pos hfree] at h
    cases h
    refine ⟨rfl, dentryGet_refs _ _, ?_⟩
    simp [dentryGet, Life.dentryGet, Life.addRef, Files.setFile]
  · rw [if_neg hfree] at h
    cases h

theorem openCreate_refs (h : openCreate new path base s = .ok (.ok d, s')) : s'.refs d = 1 := by
  unfold openCreate at h
  generalize pathParent base path s = r at h
  obtain ⟨res, s1⟩ := r
  cases res with
  | error e => cases h
  | ok parent =>
    obtain ⟨obj, -, heq⟩ := bind_eq_ok.mp h
    unfold createIn at heq
    split at heq
    · cases heq
    split at heq
    · cases heq
    split at heq
    · cases heq
    next hne =>
      cases heq
      rw [dentryPut_refs, Pi.sub_apply, one, Pi.single_eq_of_ne hne, sub_zero]
      exact Function.update_self ..

/-- The references to a dentry before the call, and none if it is only created by it. -/
def refsBefore (path : List ℕ) (base : Option ℕ) (s : State) (d : ℕ) : ℤ :=
  match (pathLookup base path s).1 with
  | .ok _ => s.refs d
  | .error _ => 0

/-- Opening a file takes two references to its dentry. -/
theorem vfsOpen_refs (hpath : Ordinary path) (h : vfsOpen flags new path base s = .ok (.ok f, s')) :
    s'.files.file f.file = some ⟨1, .other⟩ ∧
      s'.refs f.dentry = refsBefore path base s f.dentry + 2 := by
  unfold vfsOpen at h
  unfold refsBefore
  generalize hlookup : pathLookup base path s = r at h
  obtain ⟨e | d, s1⟩ := r
  · dsimp only at h ⊢
    split at h
    · obtain ⟨⟨e | d, s2⟩, hcreate, heq⟩ := bind_eq_ok.mp h
      · cases heq
      obtain ⟨rfl, hrefs, hfile⟩ := openDentry_ok (Except.ok.inj heq)
      refine ⟨hfile, ?_⟩
      rw [hrefs, Pi.add_apply, openCreate_refs hcreate, one, Pi.single_eq_same]
      norm_num
    · cases h
  · obtain ⟨rfl, hrefs, hfile⟩ := openDentry_ok (Except.ok.inj h)
    refine ⟨hfile, ?_⟩
    rw [hrefs, pathLookup_refs hpath hlookup]
    simp only [one, Pi.add_apply, Pi.single_eq_same]
    ring

/-! ## Closing -/

/-- Sequences of calls in which each `file_put` follows a `file_get` of its own. -/
inductive Paired : List FileOp → Prop
  | nil : Paired []
  | pair (ops ops' : List FileOp) (h : Paired ops) (h' : Paired ops') :
      Paired (.get :: ops ++ .put :: ops')

def runOps (f : OpenFile) (ops : List FileOp) (s : State) : Outcome State :=
  ops.foldlM (fun s op => op.run f s) s

/-- The references to the file and to the dentries are those of another state. -/
structure SameRefs (f : OpenFile) (s s' : State) : Prop where
  refs : s'.refs = s.refs
  file : s'.files.file f.file = s.files.file f.file

theorem fileGet_refs (hfile : s.files.file f.file = some ⟨n, kind⟩) :
    ∃ s', fileGet f s = .ok s' ∧ s'.refs = s.refs ∧ s'.files.file f.file = some ⟨n + 1, kind⟩ := by
  unfold fileGet Files.fileGet
  rw [hfile]
  exact ⟨_, rfl, rfl, by simp [Files.setFile]⟩

theorem fileClose_refs (hfile : s.files.file f.file = some ⟨n + 2, kind⟩) :
    ∃ s', fileClose f s = .ok s' ∧ s'.refs = s.refs ∧
      s'.files.file f.file = some ⟨n + 1, kind⟩ := by
  unfold fileClose Files.filePut
  rw [hfile]
  dsimp only
  exact ⟨_, rfl, rfl, by simp [Files.setFile]⟩

theorem fileClose_last (hfile : s.files.file f.file = some ⟨1, .other⟩) :
    ∃ s', fileClose f s = .ok s' ∧ s'.refs = s.refs - one f.dentry := by
  unfold fileClose filePut Files.filePut
  rw [hfile]
  dsimp only
  rw [if_pos rfl, if_pos rfl, Files.release, ok_bind, Files.fileFree, hfile]
  exact ⟨_, rfl, dentryPut_refs _ _⟩

theorem Paired.runOps (h : Paired ops) : ∀ {s : State} {n : ℕ} {kind},
    s.files.file f.file = some ⟨n + 1, kind⟩ →
    ∃ s', runOps f ops s = .ok s' ∧ SameRefs f s s' := by
  induction h with
  | nil =>
    intro s n kind _
    exact ⟨s, rfl, rfl, rfl⟩
  | pair ops ops' _ _ ih ih' =>
    intro s n kind hfile
    obtain ⟨s1, hget, hrefs1, hfile1⟩ := fileGet_refs hfile
    obtain ⟨s2, hrun2, hsame2⟩ := ih hfile1
    obtain ⟨s3, hput, hrefs3, hfile3⟩ := fileClose_refs (hsame2.file.trans hfile1)
    obtain ⟨s4, hrun4, hsame4⟩ := ih' hfile3
    refine ⟨s4, ?_, ?_, ?_⟩
    · simp only [Exec.runOps, List.cons_append, List.foldlM_cons, List.foldlM_append,
        FileOp.run] at hrun2 hrun4 ⊢
      rw [hget, ok_bind, hrun2, ok_bind, hput, ok_bind, hrun4]
    · rw [hsame4.refs, hrefs3, hsame2.refs, hrefs1]
    · rw [hsame4.file, hfile3, hfile]

/-- A file that has been opened and closed leaves a reference to its dentry. -/
theorem vfsOpen_close_refs (hpath : Ordinary path)
    (h : vfsOpen flags new path base s = .ok (.ok f, s')) (hops : Paired ops) :
    ∃ s1 s2, runOps f ops s' = .ok s1 ∧ fileClose f s1 = .ok s2 ∧
      s2.refs f.dentry = refsBefore path base s f.dentry + 1 := by
  obtain ⟨hfile, htwo⟩ := vfsOpen_refs hpath h
  obtain ⟨s1, hrun, hsame⟩ := hops.runOps hfile
  obtain ⟨s2, hclose, hrefs⟩ := fileClose_last (hsame.file.trans hfile)
  refine ⟨s1, s2, hrun, hclose, ?_⟩
  rw [hrefs, hsame.refs, Pi.sub_apply, htwo, one, Pi.single_eq_same]
  ring

/-! ## Both -/

/-- A file that is opened and then closed leaves the references to its dentry as they were. -/
def OpenRestores (flags : ℕ) (new : Except Err ℕ) (path : List ℕ) (base : Option ℕ) (s : State) :
    Prop :=
  ∀ f s', vfsOpen flags new path base s = .ok (.ok f, s') → ∀ ops, Paired ops →
    ∃ s1 s2, runOps f ops s' = .ok s1 ∧ fileClose f s1 = .ok s2 ∧
      s2.refs f.dentry = refsBefore path base s f.dentry

/-- The references are restored only if there is nothing to close. -/
theorem open_close_references_iff (flags : ℕ) (new : Except Err ℕ) (path : List ℕ)
    (base : Option ℕ) (s : State) (hpath : Ordinary path) :
    OpenRestores flags new path base s ↔
      ¬ ∃ f s', vfsOpen flags new path base s = .ok (.ok f, s') := by
  constructor
  · rintro hall ⟨f, s', hopen⟩
    obtain ⟨s1, s2, hrun, hclose, hsame⟩ := hall f s' hopen [] .nil
    obtain ⟨t1, t2, hrun', hclose', hmore⟩ := vfsOpen_close_refs hpath hopen .nil
    cases hrun.symm.trans hrun'
    cases hclose.symm.trans hclose'
    omega
  · exact fun hnone f s' hopen => absurd ⟨f, s', hopen⟩ hnone

/-- Nothing is opened without memory for a file. -/
theorem open_close_references_exhausted :
    Ordinary [97] ∧
      OpenRestores oCreat (.error ⟨-enomem, by decide⟩) [97] (some 8) someDirectory := by
  refine ⟨by decide, (open_close_references_iff _ _ _ _ _ (by decide)).mpr ?_⟩
  rintro ⟨f, s', hopen⟩
  cases hopen

/-- The file that is looked up, or that is created if nothing is found, is opened. -/
def someFile (lookups : List (Except Err ℕ)) : State :=
  { someDirectory with lookups, opens := [.ok (5, fun _ _ _ => none)] }

/-- After the last reference to the file is gone, the dentry keeps one, whether its file has
existed before or not. -/
theorem open_close_references_kept :
    ¬ OpenRestores 0 (.ok 9) [97] (some 8) (someFile [.ok 9]) ∧
    ¬ OpenRestores oCreat (.ok 9) [97] (some 8) (someFile []) := by
  refine ⟨fun h => ?_, fun h => ?_⟩
  all_goals
    obtain ⟨s1, s2, ⟨⟩, ⟨⟩, hsame⟩ := h _ _ rfl [] .nil
    exact absurd hsame (by decide)

end NoobKernel.Exec
