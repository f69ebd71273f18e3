import NoobKernel.Model.Inode

/-! # Identity of inodes -/

namespace NoobKernel.Icache

open Library Function Outcome

variable {s s' : State} {i j sb : Ptr} {ino : BitVec 64} {x y : Inode} {r : Option Ptr}

/-- No inode in the table is freed, and there is one inode for each number in a file system. -/
structure Good (s : State) : Prop where
  table : ∀ b, ∀ node ∈ s.ht.buckets b, (s.inode node.2).isSome
  unique : ∀ i j x y, s.inode i = some x → s.inode j = some y → x.sb = y.sb → x.ino = y.ino → i = j

/-- `inode_get` returns the inode that was asked for. -/
def Returns (call : Call) (s : State) (r : Option Ptr) (s' : State) : Prop :=
  match call with
  | .get _ _ _ sb ino => s.ext4 sb = true →
      ∃ i x, r = some i ∧ s'.inode i = some x ∧ x.sb = sb ∧ x.ino = ino
  | _ => True

/-- A call returns, with the right inode, and the inodes are as they have to be. -/
def Keeps (call : Call) (s : State) : Prop :=
  ∃ r s', step call s = .ok (r, s') ∧ Good s' ∧ Returns call s r s'

/-- The calls for which the cache works: `inode_get` finds an inode of the file system in the
table, or there is none at all for the number and memory is found; and `inode_put` gives back a
reference that is not the last one of an inode in the table. -/
def Sound (call : Call) (s : State) : Prop :=
  match call with
  | .get room _ new sb ino => s.ext4 sb = true →
      (∃ i x, hashtableLookup ino s.ht = some i ∧ s.inode i = some x ∧ x.sb = sb) ∨
        hashtableLookup ino s.ht = none ∧ Room room new s ∧
          ∀ j y, s.inode j = some y → y.sb = sb → y.ino ≠ ino
  | .put i => i ≠ 0 → ∃ x, s.inode i = some x ∧
      (x.refcnt - 1 = 0 → ∀ ino, hashtableLookup ino s.ht ≠ some i)
  | .mount _ => True

/-! ## The invariant -/

structure Inv (s : State) : Prop where
  wf : Buckets.Wf (bucketOf s.ht.size) s.ht.buckets
  table : ∀ ino i, hashtableLookup ino s.ht = some i → ∃ x, s.inode i = some x ∧ x.ino = ino
  unique : ∀ i j x y, s.inode i = some x → s.inode j = some y → x.sb = y.sb → x.ino = y.ino → i = j
  mounted : ∀ i x, s.inode i = some x → s.ext4 x.sb = true

theorem Inv.mem_iff (h : Inv s) {k : BitVec 64} {b : ℕ} :
    ⟨k, i⟩ ∈ s.ht.buckets b ↔ b = bucketOf s.ht.size k ∧ hashtableLookup k s.ht = some i :=
  h.wf.mem_iff

theorem Inv.good (h : Inv s) : Good s := by
  refine ⟨fun b node hmem => ?_, h.unique⟩
  obtain ⟨k, i⟩ := node
  obtain ⟨x, hx, -⟩ := h.table k i (h.mem_iff.mp hmem).2
  rw [hx]
  rfl

theorem inv_init : Inv inodeInit := ⟨Buckets.wf_empty, nofun, nofun, nofun⟩

section Setters

variable {z : Option Inode}

@[simp] theorem setInode_self : (setInode i z s).inode i = z := update_self ..

theorem setInode_of_ne (h : j ≠ i) : (setInode i z s).inode j = s.inode j := update_of_ne h ..

theorem setInode_eq_some (h : (setInode i z s).inode j = some y) :
    j = i ∧ z = some y ∨ j ≠ i ∧ s.inode j = some y := by
  by_cases hji : j = i
  · subst hji
    rw [setInode_self] at h
    exact Or.inl ⟨rfl, h⟩
  · rw [setInode_of_ne hji] at h
    exact Or.inr ⟨hji, h⟩

end Setters

theorem Inv.refs (h : Inv s) (hx : s.inode i = some x) (n : BitVec 32) :
    Inv (setInode i (some { x with refcnt := n }) s) := by
  have hback : ∀ j y, (setInode i (some { x with refcnt := n }) s).inode j = some y →
      ∃ y', s.inode j = some y' ∧ y'.sb = y.sb ∧ y'.ino = y.ino := by
    intro j y hj
    rcases setInode_eq_some hj with ⟨rfl, hy⟩ | ⟨-, hy⟩
    · obtain rfl := Option.some.inj hy
      exact ⟨x, hx, rfl, rfl⟩
    · exact ⟨y, hy, rfl, rfl⟩
  refine ⟨h.wf, fun ino j hj => ?_, fun j k y z hy hz hsb hino => ?_, fun j y hy => ?_⟩
  · obtain ⟨y, hy, hino⟩ := h.table ino j hj
    by_cases hji : j = i
    · subst hji
      obtain rfl := Option.mem_unique hx hy
      exact ⟨_, setInode_self, hino⟩
    · exact ⟨y, by rwa [setInode_of_ne hji], hino⟩
  · obtain ⟨y', hy', hysb, hyino⟩ := hback j y hy
    obtain ⟨z', hz', hzsb, hzino⟩ := hback k z hz
    exact h.unique j k y' z' hy' hz' (by rw [hysb, hzsb, hsb]) (by rw [hyino, hzino, hino])
  · obtain ⟨y', hy', hysb, -⟩ := hback j y hy
    exact hysb ▸ h.mounted j y' hy'

theorem Inv.free (h : Inv s) (hi : ∀ ino, hashtableLookup ino s.ht ≠ some i) :
    Inv (setInode i none s) := by
  have hback : ∀ j y, (setInode i none s).inode j = some y → s.inode j = some y := by
    intro j y hj
    rcases setInode_eq_some hj with ⟨-, hy⟩ | ⟨-, hy⟩
    · cases hy
    · exact hy
  refine ⟨h.wf, fun ino j hj => ?_, fun j k y z hy hz => ?_, fun j y hy => ?_⟩
  · have hji : j ≠ i := by
      rintro rfl
      exact hi ino hj
    rw [setInode_of_ne hji]
    exact h.table ino j hj
  · exact h.unique j k y z (hback j y hy) (hback k z hz)
  · exact h.mounted j y (hback j y hy)

theorem Inv.new (h : Inv s) (hi : s.inode i = none) (hsb : s.ext4 x.sb = true)
    (hnew : ∀ j y, s.inode j = some y → y.sb = x.sb → y.ino ≠ x.ino) :
    Inv (setInode i (some x) s) := by
  refine ⟨h.wf, fun ino j hj => ?_, fun j k y z hy hz hsb' hino => ?_, fun j y hy => ?_⟩
  · obtain ⟨y, hy, hino⟩ := h.table ino j hj
    have hji : j ≠ i := by
      rintro rfl
      cases hi.symm.trans hy
    exact ⟨y, by rwa [setInode_of_ne hji], hino⟩
  · rcases setInode_eq_some hy with ⟨hji, hxy⟩ | ⟨-, hy'⟩
    · obtain rfl := Option.some.inj hxy
      rcases setInode_eq_some hz with ⟨hki, -⟩ | ⟨-, hz'⟩
      · rw [hji, hki]
      · exact absurd hino.symm (hnew k z hz' hsb'.symm)
    · rcases setInode_eq_some hz with ⟨-, hxz⟩ | ⟨-, hz'⟩
      · obtain rfl := Option.some.inj hxz
        exact absurd hino (hnew j y hy' hsb')
      · exact h.unique j k y z hy' hz' hsb' hino
  · rcases setInode_eq_some hy with ⟨-, hy⟩ | ⟨-, hy⟩
    · obtain rfl := Option.some.inj hy
      exact hsb
    · exact h.mounted j y hy

theorem Inv.insert (h : Inv s) (hx : s.inode i = some x) (node : Bool) :
    Inv { s with ht := (hashtableInsert node x.ino i s.ht).2 } := by
  rw [hashtableInsert]
  split
  · refine ⟨h.wf.insert, fun ino j hj => ?_, h.unique, h.mounted⟩
    rw [hashtableLookup, Buckets.find_insert] at hj
    split at hj
    next hino => exact ⟨x, Option.some.inj hj ▸ hx, hino.symm⟩
    · exact h.table ino j hj
  · exact h

/-! ## Calls -/

/-- What is to be proved of a call. -/
def Spec (call : Call) (s : State) : Prop :=
  (Sound call s → ∃ r s', step call s = .ok (r, s') ∧ Inv s' ∧ Returns call s r s') ∧
    (Keeps call s → Sound call s)

theorem inodeGet_found {room node : Bool} {new : Ptr} (hat : hashtableLookup ino s.ht = some i)
    (hx : s.inode i = some x) : inodeGet room node new sb ino s =
      .ok (i, setInode i (some { x with refcnt := x.refcnt + 1 }) s) := by
  simp only [inodeGet, hat, hx]

theorem inodeGet_new {room node : Bool} {new : Ptr} (hat : hashtableLookup ino s.ht = none)
    (hroom : Room room new s) : inodeGet room node new sb ino s =
      .ok (new, { setInode new (some ⟨sb, ino, 1⟩) s with
        ht := (hashtableInsert node ino new s.ht).2 }) := by
  simp only [inodeGet, hat, inodeAlloc, if_pos hroom, setInode, update_idem]

theorem inodeGet_null {room node : Bool} {new : Ptr} (hat : hashtableLookup ino s.ht = none)
    (hroom : ¬Room room new s) : inodeGet room node new sb ino s = .error .wild := by
  simp only [inodeGet, hat, inodeAlloc, if_neg hroom]

theorem Inv.spec_get (h : Inv s) (room node : Bool) (new sb : Ptr) (ino : BitVec 64) :
    Spec (.get room node new sb ino) s := by
  by_cases hsb : s.ext4 sb = true
  · have hstep : step (.get room node new sb ino) s =
        (fun r => (some r.1, r.2)) <$> inodeGet room node new sb ino s := if_pos hsb
    rw [Spec, Keeps, hstep]
    cases hat : hashtableLookup ino s.ht with
    | some i =>
      obtain ⟨x, hx, hino⟩ := h.table ino i hat
      have hcond : Sound (.get room node new sb ino) s ↔ x.sb = sb := by simp [Sound, hsb, hat, hx]
      rw [inodeGet_found hat hx, hcond]
      constructor
      · exact fun hxsb =>
          ⟨some i, _, rfl, h.refs hx _, fun _ => ⟨i, _, rfl, setInode_self, hxsb, hino⟩⟩
      · rintro ⟨r, s', hrun, -, hreturns⟩
        obtain ⟨rfl, rfl⟩ := ok_mk_inj hrun
        obtain ⟨i', x', hi', hx', hsb', -⟩ := hreturns hsb
        obtain rfl := Option.some.inj hi'
        rw [setInode_self] at hx'
        obtain rfl := Option.some.inj hx'
        exact hsb'
    | none =>
      have hcond : Sound (.get room node new sb ino) s ↔
          Room room new s ∧ ∀ j y, s.inode j = some y → y.sb = sb → y.ino ≠ ino := by
        simp [Sound, hsb, hat]
      rw [hcond]
      by_cases hroom : Room room new s
      · rw [inodeGet_new hat hroom]
        constructor
        · rintro ⟨-, hnew⟩
          have hinv := h.new (x := ⟨sb, ino, 1⟩) hroom.2.2 hsb hnew
          exact ⟨some new, _, rfl, hinv.insert setInode_self node,
            fun _ => ⟨new, _, rfl, setInode_self, rfl, rfl⟩⟩
        · rintro ⟨r, s', hrun, hgood, -⟩
          obtain ⟨-, rfl⟩ := ok_mk_inj hrun
          refine ⟨hroom, fun j y hy hysb hyino => ?_⟩
          have hjn : j ≠ new := by
            rintro rfl
            cases hroom.2.2.symm.trans hy
          have hy' : (setInode new (some ⟨sb, ino, 1⟩) s).inode j = some y := by
            rwa [setInode_of_ne hjn]
          exact hjn (hgood.unique j new y _ hy' setInode_self hysb hyino)
      · rw [inodeGet_null hat hroom]
        exact ⟨fun hsound => absurd hsound.1 hroom, fun ⟨_, _, hrun, _⟩ => nomatch hrun⟩
  · have hstep : step (.get room node new sb ino) s = .ok (none, s) := if_neg hsb
    exact ⟨fun _ => ⟨none, s, hstep, h, fun hmounted => absurd hmounted hsb⟩,
      fun _ hmounted => absurd hmounted hsb⟩

theorem Inv.inodePut_eq (h : Inv s) (hi : i ≠ 0) (hx : s.inode i = some x) :
    inodePut i s = .ok (if x.refcnt - 1 = 0 then setInode i none s
      else setInode i (some { x with refcnt := x.refcnt - 1 }) s) := by
  rw [inodePut, if_neg hi, hx]
  dsimp only
  split
  · rw [inodeFree, setInode_self]
    dsimp only
    have hsb : (setInode i (some { x with refcnt := x.refcnt - 1 }) s).ext4 x.sb = true :=
      h.mounted i x hx
    rw [if_pos hsb, setInode, setInode, setInode]
    simp only [update_idem]
  · rfl

theorem Inv.spec_put (h : Inv s) (i : Ptr) : Spec (.put i) s := by
  by_cases hi : i = 0
  · have hstep : step (.put i) s = .ok (none, s) := by
      simp only [step, inodePut, if_pos hi]
      rfl
    exact ⟨fun _ => ⟨none, s, hstep, h, trivial⟩, fun _ hne => absurd hi hne⟩
  cases hx : s.inode i with
  | none =>
    have hstep : step (.put i) s = .error .wild := by
      simp only [step, inodePut, if_neg hi, hx]
      rfl
    refine ⟨fun hsound => ?_, fun ⟨_, _, hrun, _⟩ => nomatch hstep.symm.trans hrun⟩
    obtain ⟨x, hx', -⟩ := hsound hi
    cases hx.symm.trans hx'
  | some x =>
    have hstep : step (.put i) s = .ok (none, if x.refcnt - 1 = 0 then setInode i none s
        else setInode i (some { x with refcnt := x.refcnt - 1 }) s) := by
      rw [step, h.inodePut_eq hi hx]
      rfl
    have hcond : Sound (.put i) s ↔
        (x.refcnt - 1 = 0 → ∀ ino, hashtableLookup ino s.ht ≠ some i) := by
      simp only [Sound, ne_eq, hi, not_false_eq_true, forall_const, hx, Option.some.injEq,
        exists_eq_left']
    rw [Spec, Keeps, hstep, hcond]
    by_cases hlast : x.refcnt - 1 = 0
    · rw [if_pos hlast]
      refine ⟨fun hout => ⟨none, _, rfl, h.free (hout hlast), trivial⟩, ?_⟩
      rintro ⟨r, s', hrun, hgood, -⟩ - ino hat
      obtain ⟨-, rfl⟩ := ok_mk_inj hrun
      have hlive := hgood.table _ ⟨ino, i⟩ (h.mem_iff.mpr ⟨rfl, hat⟩)
      rw [setInode_self] at hlive
      cases hlive
    · rw [if_neg hlast]
      exact ⟨fun _ => ⟨none, _, rfl, h.refs hx _, trivial⟩, fun _ hzero => absurd hzero hlast⟩

/-! ## Mounting -/

theorem setExt4_setExt4 (hsb : s.ext4 sb = false) (mounted : Bool) :
    setExt4 sb false (setExt4 sb mounted s) = s := by
  have hfun : update (update s.ext4 sb mounted) sb false = s.ext4 := by
    rw [update_idem, ← hsb, update_eq_self]
  exact congrArg (fun ext4 => ({ s with ext4 } : State)) hfun

theorem setInode_none (hi : s.inode i = none) (z : Option Inode) :
    setInode i none (setInode i z s) = s := by
  have hfun : update (update s.inode i z) i none = s.inode := by
    rw [update_idem, ← hi, update_eq_self]
  exact congrArg (fun inode => ({ s with inode } : State)) hfun

theorem setInode_setInode (z z' : Option Inode) :
    setInode i z' (setInode i z s) = setInode i z' s := by
  rw [setInode, setInode, setInode]
  simp only [update_idem]

theorem Inv.setExt4 (h : Inv s) (sb : Ptr) : Inv (setExt4 sb true s) := by
  refine ⟨h.wf, h.table, h.unique, fun i x hx => ?_⟩
  by_cases hxsb : x.sb = sb
  · rw [hxsb]
    exact update_self ..
  · exact (update_of_ne hxsb ..).trans (h.mounted i x hx)

theorem Inv.ext4Mount (h : Inv s) (ans : MountAnswer) :
    ∃ r s', ext4Mount ans s = .ok (r, s') ∧ Inv s' := by
  unfold Icache.ext4Mount
  split
  · exact ⟨none, s, rfl, h⟩
  next hguard =>
    have hfree : s.ext4 ans.sb = false := by
      simp only [Bool.not_eq_true, Bool.or_eq_false_iff] at hguard
      exact hguard.2
    have hback : Inv (Icache.setExt4 ans.sb false (Icache.setExt4 ans.sb true s)) := by
      rwa [setExt4_setExt4 hfree]
    dsimp only
    split
    · exact ⟨none, _, rfl, hback⟩
    by_cases hroom : Room ans.room ans.root (Icache.setExt4 ans.sb true s)
    · have halloc : inodeAlloc ans.room ans.root ans.sb (Icache.setExt4 ans.sb true s) = _ :=
        if_pos hroom
      have hnone : s.inode ans.root = none := hroom.2.2
      rw [halloc]
      dsimp only
      rw [setInode_setInode]
      split
      · have hmounted : (setInode ans.root (some ⟨ans.sb, rootIno, 1⟩)
            (Icache.setExt4 ans.sb true s)).ext4 ans.sb = true := update_self ..
        rw [inodeFree, setInode_self]
        dsimp only
        rw [if_pos hmounted, ok_bind]
        refine ⟨none, _, rfl, ?_⟩
        rwa [setInode_none (s := Icache.setExt4 ans.sb true s) hnone]
      · refine ⟨some ans.sb, _, rfl, (h.setExt4 ans.sb).new hnone (update_self ..) ?_⟩
        intro j y hy hysb
        have hmounted := h.mounted j y hy
        rw [hysb, hfree] at hmounted
        cases hmounted
    · have halloc : inodeAlloc ans.room ans.root ans.sb (Icache.setExt4 ans.sb true s) = _ :=
        if_neg hroom
      rw [halloc]
      exact ⟨none, _, rfl, hback⟩

theorem Inv.spec (h : Inv s) (call : Call) : Spec call s := by
  cases call with
  | get room node new sb ino => exact h.spec_get room node new sb ino
  | put i => exact h.spec_put i
  | mount ans =>
    obtain ⟨r, s', hrun, hinv⟩ := h.ext4Mount ans
    exact ⟨fun _ => ⟨r, s', hrun, hinv, trivial⟩, fun _ => trivial⟩

/-! ## Runs -/

theorem Run.inv (h : Run Sound s) : Inv s := by
  induction h with
  | init => exact inv_init
  | @step s s' r call _ hok hrun ih =>
    obtain ⟨r', s1, hrun', hinv, -⟩ := (ih.spec call).1 hok
    obtain ⟨-, rfl⟩ := ok_mk_inj (hrun'.symm.trans hrun)
    exact hinv

/-- In the runs in which each call is one for which the cache works, the inodes are as they have
to be, and the next call keeps that exactly if it is such a call. -/
theorem inode_identity_iff (h : Run Sound s) : Good s ∧ ∀ call, Keeps call s ↔ Sound call s := by
  refine ⟨h.inv.good, fun call => ?_⟩
  obtain ⟨hsound, hkeeps⟩ := h.inv.spec call
  refine ⟨hkeeps, fun hs => ?_⟩
  obtain ⟨r, s', hrun, hinv, hreturns⟩ := hsound hs
  exact ⟨r, s', hrun, hinv.good, hreturns⟩

def calls : List Call → State → Outcome State
  | [], s => .ok s
  | call :: rest, s => do
      let (_, s) ← step call s
      calls rest s

theorem Run.calls {l : List Call} (h : Run (fun _ _ => True) s) (hrun : Icache.calls l s = .ok s') :
    Run (fun _ _ => True) s' := by
  induction l generalizing s with
  | nil =>
    obtain rfl := Except.ok.inj hrun
    exact h
  | cons call rest ih =>
    obtain ⟨⟨r, s1⟩, hstep, hrest⟩ := bind_eq_ok.mp hrun
    exact ih (h.step call trivial hstep) hrest

/-- The mount of a file system at `sb`, which succeeds. -/
def mountAt (sb root : Ptr) : Call := .mount ⟨sb, root, true, true, true, true, true⟩

def mountedOnce : State :=
  setInode 0x2000 (some ⟨0x1000, rootIno, 1⟩) (setExt4 0x1000 true inodeInit)

theorem step_mountAt : step (mountAt 0x1000 0x2000) inodeInit = .ok (some 0x1000, mountedOnce) := by
  have hmount : step (mountAt 0x1000 0x2000) inodeInit = .ok (some 0x1000,
      setInode 0x2000 (some ⟨0x1000, rootIno, 1⟩)
        (setInode 0x2000 (some ⟨0x1000, 0, 1⟩) (setExt4 0x1000 true inodeInit))) := rfl
  rw [hmount, setInode_setInode, mountedOnce]

theorem inode_identity_mounted : Run Sound mountedOnce ∧ Good mountedOnce ∧
    Keeps (.get true true 0x3000 0x1000 12) mountedOnce := by
  have h : Run Sound mountedOnce := Run.init.step (mountAt 0x1000 0x2000) trivial step_mountAt
  obtain ⟨hgood, hiff⟩ := inode_identity_iff h
  refine ⟨h, hgood, (hiff _).mpr fun _ => Or.inr ⟨rfl, by decide, fun j y hy _ => ?_⟩⟩
  rcases setInode_eq_some hy with ⟨-, hroot⟩ | ⟨-, hnone⟩
  · obtain rfl := Option.some.inj hroot
    decide
  · cases hnone

/-- Two file systems are mounted. The inode that is read for number 12 of the first one is
returned for the second one, too; when its last references are put, it is freed and stays in the
table; and the directory above a directory of the root is another inode than the root inode. -/
theorem inode_identity_fails :
    (∃ s r s' x, Run (fun _ _ => True) s ∧ s.ext4 0x1100 = true ∧
      step (.get true true 0x4000 0x1100 12) s = .ok (some r, s') ∧ s'.inode r = some x ∧
      x.sb = 0x1000) ∧
    (∃ s, Run (fun _ _ => True) s ∧ hashtableLookup 12 s.ht = some 0x3000 ∧ s.inode 0x3000 = none) ∧
    ∃ s x y, Run (fun _ _ => True) s ∧ s.inode 0x2000 = some x ∧ s.inode 0x3000 = some y ∧
      x.sb = y.sb ∧ x.ino = y.ino := by
  refine ⟨?_, ?_, ?_⟩
  · have hcheck : (calls [mountAt 0x1000 0x2000, mountAt 0x1100 0x2100,
        .get true true 0x3000 0x1000 12] inodeInit).checks (fun s =>
          decide (s.ext4 0x1100 = true) &&
            (step (.get true true 0x4000 0x1100 12) s).checks (fun r =>
              decide (r.1 = some 0x3000 ∧ r.2.inode 0x3000 = some ⟨0x1000, 12, 2⟩))) = true := by
      decide +kernel
    obtain ⟨s, hrun, hs⟩ := exists_of_checks hcheck
    obtain ⟨hmounted, hs⟩ := (Bool.and_eq_true_iff ..).mp hs
    obtain ⟨⟨r, s'⟩, hget, rfl, hx⟩ := exists_of_decide hs
    exact ⟨s, _, s', _, Run.init.calls hrun, of_decide_eq_true hmounted, hget, hx, rfl⟩
  · have hcheck : (calls [mountAt 0x1000 0x2000, .get true true 0x3000 0x1000 12, .put 0x3000]
        inodeInit).checks (fun s => decide (hashtableLookup 12 s.ht = some 0x3000 ∧
          s.inode 0x3000 = none)) = true := by decide +kernel
    obtain ⟨s, hrun, hs⟩ := exists_of_checks hcheck
    exact ⟨s, Run.init.calls hrun, of_decide_eq_true hs⟩
  · have hcheck : (calls [mountAt 0x1000 0x2000, .get true true 0x3000 0x1000 2]
        inodeInit).checks (fun s => decide (s.inode 0x2000 = some ⟨0x1000, 2, 1⟩ ∧
          s.inode 0x3000 = some ⟨0x1000, 2, 1⟩)) = true := by decide +kernel
    obtain ⟨s, hrun, hx, hy⟩ := exists_of_decide hcheck
    exact ⟨s, _, _, Run.init.calls hrun, hx, hy, rfl, rfl⟩

end NoobKernel.Icache
