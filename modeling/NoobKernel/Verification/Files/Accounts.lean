import NoobKernel.Verification.Files.Processes
import NoobKernel.Model.Pipe

/-! # Reference counts over whole runs -/

namespace NoobKernel.Files

open Library Prog Outcome Multiset State

variable {s s' : State} {σ σ' : Local} {p q f : ℕ} {kills : Prop} {op : Op} {a : Ans op}
  {Ok : Event → State → Prop}

/-! ## Zombies -/

/-- A process has no more references than before. -/
structure NoMore (σ σ' : Local) : Prop where
  held : σ'.held ≤ σ.held
  child : σ'.child = σ.child ∨ σ'.child = none

theorem NoMore.refl (σ : Local) : NoMore σ σ := ⟨le_rfl, Or.inl rfl⟩

theorem SetsAside.noMore {r : ℤ} (hs : SetsAside σ r σ') : σ'.dead = σ.dead ∧ NoMore σ σ' := by
  rcases hs with ⟨-, rfl⟩ | ⟨fd, t, t', -, -, -, rfl⟩ <;>
    exact ⟨rfl, le_rfl, Or.inl rfl⟩

theorem Stores.noMore {fd r : ℤ} (hs : Stores σ fd f r σ') : σ'.dead = σ.dead ∧ NoMore σ σ' := by
  rcases hs with ⟨t, t', -, -, -, rfl⟩ | ⟨-, rfl, -⟩
  · exact ⟨rfl, erase_le f _, Or.inl rfl⟩
  · exact ⟨rfl, NoMore.refl _⟩

/-- Only a process that is not a zombie takes references, and one operation makes zombies. -/
theorem step_cases (hok : (rules kills p).ok op σ) (hs : (rules kills p).step op σ a σ') :
    σ'.dead = σ.dead ∧ (p ∉ σ.dead ∨ NoMore σ σ') ∨
      ∃ q, op = .zombie q ∧ σ' = { σ with dead := q :: σ.dead } := by
  cases op with
  | fdGet | vfsOpen =>
    rcases hs with ⟨-, rfl⟩ | ⟨f, -, rfl⟩ <;> exact Or.inl ⟨rfl, Or.inl hok⟩
  | pipeFiles =>
    rcases hs with ⟨-, rfl⟩ | ⟨rf, wf, -, rfl⟩ <;> exact Or.inl ⟨rfl, Or.inl hok⟩
  | fileGet f =>
    obtain rfl : σ' = σ.hold f := hs
    exact Or.inl ⟨rfl, Or.inl hok.2⟩
  | allocProc =>
    rcases hs with ⟨-, rfl⟩ | ⟨-, t, -, rfl⟩ <;> exact Or.inl ⟨rfl, Or.inl hok.2⟩
  | childDup =>
    rcases hs with ⟨-, rfl⟩ | ⟨-, t, rfl⟩ <;> exact Or.inl ⟨rfl, Or.inl hok.2⟩
  | fdAlloc | dupfdAlloc => exact Or.inl ⟨(SetsAside.noMore hs).1, Or.inr (SetsAside.noMore hs).2⟩
  | dup3Grow newfd =>
    rcases hs with ⟨-, rfl⟩ | ⟨-, t, rfl⟩ <;> exact Or.inl ⟨rfl, Or.inr ⟨le_rfl, Or.inl rfl⟩⟩
  | fdInstall fd f => exact Or.inl ⟨(Stores.noMore hs).1, Or.inr (Stores.noMore hs).2⟩
  | fdFree fd =>
    rcases hs with rfl | ⟨-, t, rfl⟩ <;> exact Or.inl ⟨rfl, Or.inr ⟨le_rfl, Or.inl rfl⟩⟩
  | filePut f =>
    obtain rfl : σ' = σ.put f := hs
    exact Or.inl ⟨rfl, Or.inr ⟨erase_le f _, Or.inl rfl⟩⟩
  | ask | reap =>
    obtain rfl : σ' = σ := hs
    exact Or.inl ⟨rfl, Or.inr (NoMore.refl _)⟩
  | target =>
    rcases hs with ⟨-, rfl⟩ | ⟨q, -, rfl⟩ <;> exact Or.inl ⟨rfl, Or.inr ⟨le_rfl, Or.inl rfl⟩⟩
  | childFree | childDrop | enqueue =>
    obtain rfl : σ' = { σ with child := none } := hs
    exact Or.inl ⟨rfl, Or.inr ⟨le_rfl, Or.inr rfl⟩⟩
  | fdTableFree q =>
    obtain rfl : σ' = if q = p then σ.setTable none else σ := hs
    split <;> exact Or.inl ⟨rfl, Or.inr ⟨le_rfl, Or.inl rfl⟩⟩
  | zombie q => exact Or.inr ⟨q, rfl, hs⟩

theorem step_zombie (hok : (rules kills p).ok op σ) (hs : (rules kills p).step op σ a σ')
    (hz : p ∈ σ.dead → σ.held = 0 ∧ σ.child = none) (hp : p ∈ σ'.dead) :
    σ'.held = 0 ∧ σ'.child = none := by
  rcases step_cases hok hs with ⟨hdead, hcase⟩ | ⟨q, rfl, rfl⟩
  · have hold : p ∈ σ.dead := hdead ▸ hp
    obtain ⟨hheld, hchild⟩ := hz hold
    rcases hcase with hnot | hless
    · exact absurd hold hnot
    refine ⟨le_zero.mp (hheld ▸ hless.held), ?_⟩
    rcases hless.child with hsame | hnone
    · exact hsame.trans hchild
    · exact hnone
  · rcases List.mem_cons.mp hp with rfl | hold
    · exact hok.1 rfl
    · exact hz hold

/-! ## The invariant -/

/-- What holds between two events. A process that may go on is where its system call meets the
rules. -/
structure Inv (kills : Prop) (s : State) : Prop where
  counts : s.heap.Counts s.refs
  tables : ∀ p < s.nproc, ∀ fdt, (s.proc p).fdTable = some fdt → fdt.Wf
  threads : ∀ p c, s.CanRun p → (s.proc p).code = some c →
    ∃ σ, View p s σ ∧ Wp (rules kills p) c (fun _ => Returned p) σ
  idle : ∀ p < s.nproc, (s.proc p).code = none → (s.proc p).held = 0 ∧ (s.proc p).child = none ∧
    ((s.proc p).zombie = true ∨ (s.proc p).fdTable.isSome = true)
  zombies : ∀ p < s.nproc, (s.proc p).zombie = true → (s.proc p).held = 0 ∧ (s.proc p).child = none

/-- Process `p` goes on with the rest of its call. -/
def State.resume (p : ℕ) (code : Option (Code ℤ)) (s : State) : State :=
  { setProc p { s.proc p with code } s with cur := p }

section Resume

variable {code : Option (Code ℤ)}

theorem State.resume_self : (s.resume p code).proc p = { s.proc p with code } :=
  Function.update_self ..

theorem State.resume_of_ne (hq : q ≠ p) : (s.resume p code).proc q = s.proc q :=
  Function.update_of_ne hq ..

theorem State.resume_field {α : Type} (field : Proc → α)
    (hfield : ∀ pr code, field { pr with code } = field pr) (q : ℕ) :
    field ((s.resume p code).proc q) = field (s.proc q) := by
  by_cases hq : q = p
  · subst hq
    rw [resume_self, hfield]
  · rw [resume_of_ne hq]

@[simp] theorem State.resume_fdTable (q : ℕ) :
    ((s.resume p code).proc q).fdTable = (s.proc q).fdTable :=
  resume_field Proc.fdTable (fun _ _ => rfl) q

@[simp] theorem State.resume_child (q : ℕ) : ((s.resume p code).proc q).child = (s.proc q).child :=
  resume_field Proc.child (fun _ _ => rfl) q

@[simp] theorem State.resume_held (q : ℕ) : ((s.resume p code).proc q).held = (s.proc q).held :=
  resume_field Proc.held (fun _ _ => rfl) q

@[simp] theorem State.resume_zombie (q : ℕ) :
    ((s.resume p code).proc q).zombie = (s.proc q).zombie :=
  resume_field Proc.zombie (fun _ _ => rfl) q

theorem State.refs_resume : (s.resume p code).refs = s.refs := by
  refine Finset.sum_congr rfl (fun q _ => ?_)
  simp [Proc.refs, Proc.slots]

theorem View.resume (hv : View q s σ) : View q (s.resume p code) σ where
  table := by rw [resume_fdTable, hv.table]
  child := by rw [resume_child, hv.child]
  held := by rw [resume_held, hv.held]
  seen := hv.seen
  dead r hr := by
    rw [resume_zombie]
    exact hv.dead r hr
  zombie hz := by
    rw [resume_zombie] at hz
    exact hv.zombie hz

end Resume

/-- What process `q` knows stays true when `p` runs, unless `q` is a zombie by then. -/
theorem View.left (hv : View q s σ) {σp : Local} (hafter : After p s s' σp) (hq : q < s.nproc)
    (hne : q ≠ p) (halive : (s'.proc q).zombie = false) : View q s' σ := by
  have hleft := hafter.frame.left q hq hne
  have htable : (s'.proc q).fdTable = (s.proc q).fdTable := by
    rcases hleft.table with hsame | ⟨hz, -⟩
    · exact hsame
    · rw [halive] at hz
      cases hz
  refine ⟨⟨htable.trans hv.table, hleft.child.trans hv.child, hleft.held.trans hv.held⟩,
    fun r hr => (hv.seen r hr).trans_le hafter.frame.nproc, fun r hr => ?_, fun hz => ?_⟩
  · obtain ⟨hr, hz⟩ := hv.dead r hr
    refine ⟨hr.trans_le hafter.frame.nproc, ?_⟩
    by_cases hrp : r = p
    · subst hrp
      exact hafter.frame.zombie hz
    · exact (hafter.frame.left r hr hrp).zombie hz
  · rw [halive] at hz
    cases hz

theorem Inv.resume (hi : Inv kills s) (hp : p < s.nproc) (hafter : After p s s' σ')
    (hzombies : ∀ q < s'.nproc, (s'.proc q).zombie = true →
      (s'.proc q).held = 0 ∧ (s'.proc q).child = none)
    {code : Option (Code ℤ)}
    (hsome : ∀ c, code = some c → Wp (rules kills p) c (fun _ => Returned p) σ')
    (hnone : code = none → Returned p σ') : Inv kills (s'.resume p code) := by
  have hframe := hafter.frame
  refine ⟨?_, ?_, ?_, ?_, ?_⟩
  · rw [refs_resume]
    exact hafter.counts
  · intro q hq fdt hfdt
    rw [resume_fdTable] at hfdt
    by_cases hqp : q = p
    · subst hqp
      obtain ⟨t, -, rfl⟩ := hafter.view.fdTable_some hfdt
      exact t.2
    rcases lt_or_ge q s.nproc with hold | hnew
    · rcases (hframe.left q hold hqp).table with hsame | ⟨-, hnone'⟩
      · exact hi.tables q hold fdt (hsame.symm.trans hfdt)
      · cases hnone'.symm.trans hfdt
    · obtain ⟨t, ht⟩ := (hframe.fresh q hnew hq).table
      exact Option.mem_unique ht hfdt ▸ t.2
  · intro q c hcan hcode
    by_cases hqp : q = p
    · subst hqp
      rw [resume_self] at hcode
      exact ⟨σ', hafter.view.resume, hsome c hcode⟩
    -- another process that may go on is not a zombie, now that `p` has run
    have halive : (s'.proc q).zombie = false := by
      rcases hcan.2 with hz | hcur
      · rwa [resume_zombie] at hz
      · exact absurd hcur.symm hqp
    rw [resume_of_ne hqp] at hcode
    rcases lt_or_ge q s.nproc with hold | hnew
    · have hleft := hframe.left q hold hqp
      have hbefore : (s.proc q).zombie = false := by
        cases hz : (s.proc q).zombie with
        | false => rfl
        | true => rw [hleft.zombie hz] at halive; cases halive
      obtain ⟨σ, hv, hwp⟩ := hi.threads q c ⟨hold, Or.inl hbefore⟩ (hleft.code.symm.trans hcode)
      exact ⟨σ, (hv.left hafter hold hqp halive).resume, hwp⟩
    · cases (hframe.fresh q hnew hcan.1).code.symm.trans hcode
  · intro q hq hcode
    rw [resume_held, resume_child, resume_zombie, resume_fdTable]
    by_cases hqp : q = p
    · subst hqp
      rw [resume_self] at hcode
      obtain ⟨hheld, hchild, hcase⟩ := hnone hcode
      refine ⟨hafter.view.held.trans hheld, by rw [hafter.view.child, hchild]; rfl, ?_⟩
      rcases hcase with ht | hdead
      · rw [hafter.view.table, Option.isSome_map]
        exact Or.inr ht
      · exact Or.inl (hafter.view.dead q hdead).2
    rw [resume_of_ne hqp] at hcode
    rcases lt_or_ge q s.nproc with hold | hnew
    · have hleft := hframe.left q hold hqp
      obtain ⟨hheld, hchild, hcase⟩ := hi.idle q hold (hleft.code.symm.trans hcode)
      refine ⟨hleft.held.trans hheld, hleft.child.trans hchild, ?_⟩
      rcases hleft.table with hsame | ⟨hz, -⟩
      · rw [hsame]
        exact hcase.imp_left hleft.zombie
      · exact Or.inl hz
    · have hfresh := hframe.fresh q hnew hq
      obtain ⟨t, ht⟩ := hfresh.table
      exact ⟨hfresh.held, hfresh.child, Or.inr (by rw [ht]; rfl)⟩
  · intro q hq hz
    rw [resume_zombie] at hz
    rw [resume_held, resume_child]
    exact hzombies q hq hz

/-! ## Events -/

/-- The other process that an event makes a zombie. -/
def Event.killed (e : Event) (s : State) : Option ℕ :=
  match e with
  | .start _ _ => none
  | .step p _ =>
    match (s.proc p).code with
    | some (.call (.zombie q) _) => if q = p then none else some q
    | _ => none

/-- A process that is killed holds no references but those of its descriptors. -/
def KillsIdle (e : Event) (s : State) : Prop :=
  ∀ q ∈ e.killed s, (s.proc q).held = 0 ∧ (s.proc q).child = none

instance (e : Event) (s : State) : Decidable (KillsIdle e s) := by
  unfold KillsIdle
  infer_instance

theorem killed_step {ans : Answer} {rest : Unit → Code ℤ}
    (hcode : (s.proc p).code = some (.call (.zombie q) rest)) (hq : q ≠ p) :
    (Event.step p ans).killed s = some q := by
  simp only [Event.killed, hcode, if_neg hq]

theorem Inv.call (hi : Inv kills s) (hcan : s.CanRun p) {rest : Ans op → Code ℤ}
    (hcode : (s.proc p).code = some (.call op rest)) (ans : Answer)
    (hidle : kills → KillsIdle (.step p ans) s) :
    ∃ a s', exec p ans s op = .ok (a, s') ∧ Inv kills (s'.resume p (some (rest a))) := by
  obtain ⟨σ, hv, hok, hrest⟩ := hi.threads p _ hcan hcode
  obtain ⟨a, s', σ', hrun, hstep, hafter⟩ := exec_spec hcan.1 hv hi.counts hi.tables ans hok
  refine ⟨a, s', hrun, hi.resume hcan.1 hafter ?_ ?_ nofun⟩
  · intro q hq hz
    by_cases hqp : q = p
    · subst hqp
      have hbefore : q ∈ σ.dead → σ.held = 0 ∧ σ.child = none := by
        intro hdead
        obtain ⟨hheld, hchild⟩ := hi.zombies q hcan.1 (hv.dead q hdead).2
        exact ⟨hv.held.symm.trans hheld, Option.map_eq_none_iff.mp (hv.child.symm.trans hchild)⟩
      obtain ⟨hheld, hchild⟩ := step_zombie hok hstep hbefore (hafter.view.zombie hz)
      exact ⟨hafter.view.held.trans hheld, by rw [hafter.view.child, hchild]; rfl⟩
    rcases lt_or_ge q s.nproc with hold | hnew
    · have hleft := hafter.frame.left q hold hqp
      rw [hleft.held, hleft.child]
      have hnow : (s.proc q).zombie = true ∨ op = .zombie q := by
        rcases hafter.made q hold hz with hz | hdead
        · exact Or.inl hz
        rcases step_cases hok hstep with ⟨hsame, -⟩ | ⟨r, rfl, rfl⟩
        · exact Or.inl (hv.dead q (hsame ▸ hdead)).2
        rcases List.mem_cons.mp hdead with rfl | hdead
        · exact Or.inr rfl
        · exact Or.inl (hv.dead q hdead).2
      rcases hnow with hz | rfl
      · exact hi.zombies q hold hz
      · exact hidle (hok.2 hqp).1 q (killed_step hcode hqp)
    · have hfresh := hafter.frame.fresh q hnew hq
      exact ⟨hfresh.held, hfresh.child⟩
  · intro c hc
    obtain rfl := Option.some.inj hc
    exact hrest a σ' hstep

theorem Inv.start (hi : Inv kills s) (hp : p < s.nproc) (halive : (s.proc p).zombie = false)
    (hnone : (s.proc p).code = none) (c : Call) (hkills : ∀ sig, c = .kill sig → kills) :
    Inv kills (s.resume p (some (c.code p))) := by
  obtain ⟨hheld, hchild, hcase⟩ := hi.idle p hp hnone
  obtain ⟨fdt, hfdt⟩ : ∃ fdt, (s.proc p).fdTable = some fdt := by
    rcases hcase with hz | hsome
    · rw [halive] at hz
      cases hz
    · exact Option.isSome_iff_exists.mp hsome
  have hv : View p s ⟨some ⟨fdt, hi.tables p hp fdt hfdt⟩, none, 0, [], []⟩ := by
    refine ⟨⟨hfdt, hchild, hheld⟩, nofun, nofun, fun hz => ?_⟩
    rw [halive] at hz
    cases hz
  refine hi.resume hp (after_same hv hi.counts) hi.zombies (fun c' hc' => ?_) nofun
  obtain rfl := Option.some.inj hc'
  exact c.wp ⟨rfl, rfl, rfl, List.not_mem_nil⟩ hkills

/-- Every event can happen and keeps the invariant. -/
theorem Inv.next (hi : Inv kills s) (e : Event) (hkills : ∀ p sig, e = .start p (.kill sig) → kills)
    (hidle : kills → KillsIdle e s) : ∃ s', Files.next e s = .ok s' ∧ Inv kills s' := by
  cases e with
  | start p c =>
    by_cases hcan : s.CanRun p ∧ (s.proc p).zombie = false ∧ (s.proc p).code.isNone
    · refine ⟨_, if_pos hcan, hi.start hcan.1.1 hcan.2.1 (Option.isNone_iff_eq_none.mp hcan.2.2) c
        (fun sig hc => hkills p sig (by rw [hc]))⟩
    · exact ⟨s, if_neg hcan, hi⟩
  | step p ans =>
    by_cases hcan : s.CanRun p
    · cases hcode : (s.proc p).code with
      | none => exact ⟨s, by simp only [Files.next, if_pos hcan, hcode], hi⟩
      | some c =>
        cases c with
        | ret r =>
          obtain ⟨σ, hv, hret⟩ := hi.threads p _ hcan hcode
          refine ⟨s.resume p none, ?_,
            hi.resume hcan.1 (after_same hv hi.counts) hi.zombies nofun (fun _ => hret)⟩
          simp only [Files.next, if_pos hcan, hcode]
          rfl
        | call op rest =>
          obtain ⟨a, s', hrun, hinv⟩ := hi.call hcan hcode ans hidle
          refine ⟨_, ?_, hinv⟩
          simp only [Files.next, if_pos hcan, hcode, hrun, ok_bind]
          rfl
    · exact ⟨s, if_neg hcan, hi⟩

theorem counts_boot : boot.heap.Counts boot.refs := by
  have hrefs : boot.refs = {0, 0, 0} := by decide
  have hfile : ∀ f file, boot.heap.file f = some file → f = 0 ∧ file = ⟨3, .other⟩ := by
    intro f file hf
    by_cases hzero : f = 0
    · subst hzero
      exact ⟨rfl, (Option.some.inj hf).symm⟩
    · have hnone : boot.heap.file f = none := by simp [boot, hzero]
      cases hnone.symm.trans hf
  have hkind : ∀ f file (e : End) k, boot.heap.file f = some file → file.kind ≠ e.kind k := by
    rintro f file e k hf
    obtain ⟨-, rfl⟩ := hfile f file hf
    cases e <;> exact nofun
  refine ⟨⟨?_, ?_⟩, ?_, ?_, ?_⟩
  · intro f file hf
    obtain ⟨rfl, rfl⟩ := hfile f file hf
    decide
  · intro f hf
    have hne : f ≠ 0 := by
      rintro rfl
      cases hf
    rw [hrefs]
    simp [hne]
  · exact fun f file e k hf hk => absurd hk (hkind f file e k hf)
  · exact fun f g file file' e k hf _ hk => absurd hk (hkind f file e k hf)
  · exact fun e k hne => absurd rfl hne

theorem inv_boot : Inv kills boot := by
  have hone : ∀ p < boot.nproc, p = 0 := fun p hp => Nat.lt_one_iff.mp hp
  refine ⟨counts_boot, ?_, ?_, ?_, ?_⟩
  · intro p hp fdt hfdt
    obtain rfl := hone p hp
    obtain rfl := Option.some.inj hfdt
    exact ⟨rfl, ⟨0, by decide, rfl⟩, by decide⟩
  · intro p c hcan hcode
    obtain rfl := hone p hcan.1
    cases hcode
  · intro p hp _
    obtain rfl := hone p hp
    exact ⟨rfl, rfl, Or.inr rfl⟩
  · intro p hp hz
    obtain rfl := hone p hp
    cases hz

/-! ## Runs -/

theorem Run.inv (hkills : ∀ p sig s, Ok (.start p (.kill sig)) s → kills)
    (hidle : kills → ∀ e s, Ok e s → KillsIdle e s) (h : Run Ok s) : Inv kills s := by
  induction h with
  | boot => exact inv_boot
  | @next s s' e _ hok hnext ih =>
    obtain ⟨s1, hrun, hinv⟩ := ih.next e (fun p sig he => hkills p sig s (he ▸ hok))
      (fun hk => hidle hk e s hok)
    obtain rfl := Except.ok.inj (hrun.symm.trans hnext)
    exact hinv

def slotsOf (f : ℕ) : Option FdTable → ℕ
  | none => 0
  | some fdt => fdt.fds.count (.file f)

/-- The number of slots that hold a file, in the tables of all processes and of the children that
are being made. -/
def State.slots (f : ℕ) (s : State) : ℕ :=
  ∑ p ∈ Finset.range s.nproc, (slotsOf f (s.proc p).fdTable + slotsOf f (s.proc p).child)

/-- The number of references to a file that system calls hold for the moment. -/
def State.temporaries (f : ℕ) (s : State) : ℕ := ∑ p ∈ Finset.range s.nproc, (s.proc p).held.count f

theorem count_files (f : ℕ) (slots : List Slot) :
    (slots.map Slot.files).sum.count f = slots.count (.file f) := by
  induction slots with
  | nil => rfl
  | cons slot rest ih =>
    rw [List.map_cons, List.sum_cons, count_add, ih, List.count_cons, add_comm]
    cases slot with
    | null | reserved => rfl
    | file g =>
      by_cases hg : f = g
      · subst hg
        simp
      · have hne : Slot.file g ≠ .file f := fun heq => hg (Slot.file.inj heq).symm
        simp [hg, hne]

theorem count_tableFiles (f : ℕ) (table : Option FdTable) :
    (tableFiles table).count f = slotsOf f table := by
  cases table with
  | none => rfl
  | some fdt => exact count_files f fdt.fds

theorem State.count_refs (f : ℕ) (s : State) : s.refs.count f = s.slots f + s.temporaries f := by
  rw [refs, count_sum', slots, temporaries, ← Finset.sum_add_distrib]
  refine Finset.sum_congr rfl (fun p _ => ?_)
  rw [Proc.refs, Proc.slots, count_add, count_add, count_tableFiles,
    count_tableFiles]

/-- The accounts of open files: a file that is not freed has as many references as its count
says, at least one; a file that is freed has none; and only system calls hold references
without a slot. -/
structure Accounts (s : State) : Prop where
  live : ∀ f file, s.heap.file f = some file →
    file.refcnt = s.slots f + s.temporaries f ∧ 0 < file.refcnt
  freed : ∀ f, s.heap.file f = none → s.slots f = 0 ∧ s.temporaries f = 0
  user : ∀ p < s.nproc, (s.proc p).code = none → (s.proc p).held = 0 ∧ (s.proc p).child = none

theorem Inv.accounts (hi : Inv kills s) : Accounts s where
  live f file hf := by
    obtain ⟨hcount, hpos⟩ := hi.counts.live f file hf
    rw [← count_refs]
    exact ⟨hcount, hcount ▸ hpos⟩
  freed f hf := by
    have hzero := hi.counts.dead f hf
    rw [count_refs] at hzero
    exact Nat.add_eq_zero_iff.mp hzero
  user p hp hcode := by
    obtain ⟨hheld, hchild, -⟩ := hi.idle p hp hcode
    exact ⟨hheld, hchild⟩

def events (Ok : Event → State → Prop) [∀ e s, Decidable (Ok e s)] :
    List Event → State → Outcome State
  | [], s => .ok s
  | e :: rest, s =>
    if Ok e s then do
      let s ← next e s
      events Ok rest s
    else .error .fuel

theorem Run.events [∀ e s, Decidable (Ok e s)] {es : List Event} (h : Run Ok s)
    (hrun : Files.events Ok es s = .ok s') : Run Ok s' := by
  induction es generalizing s with
  | nil =>
    obtain rfl := Except.ok.inj hrun
    exact h
  | cons e rest ih =>
    unfold Files.events at hrun
    split at hrun
    next hok =>
      obtain ⟨s1, hnext, hrest⟩ := bind_eq_ok.mp hrun
      exact ih (h.next e hok hnext) hrest
    · cases hrun

def Event.isKill : Event → Bool
  | .start _ (.kill _) => true
  | _ => false

def NoKill (e : Event) (_ : State) : Prop := e.isKill = false

instance (e : Event) (s : State) : Decidable (NoKill e s) := inferInstanceAs (Decidable (_ = _))

/-- In all runs without `sys_kill` the counts of files are right, and every event can happen: no
file is freed twice or used when it is freed. -/
theorem file_accounts (h : Run NoKill s) :
    Accounts s ∧ ∀ e, NoKill e s → ∃ s', next e s = .ok s' := by
  have hi : Inv False s := h.inv (fun p sig s hok => nomatch hok) False.elim
  refine ⟨hi.accounts, fun e hok => ?_⟩
  have hkill : ∀ p sig, e = .start p (.kill sig) → False := by
    rintro p sig rfl
    cases hok
  obtain ⟨s', hnext, -⟩ := hi.next e hkill False.elim
  exact ⟨s', hnext⟩

/-- A pipe is made, the process forks, and the child reads from the pipe. -/
def pipeForkRead : List Event :=
  let ans : Answer := ⟨true, 1, 2, 0, 0⟩
  .start 0 .pipe2 :: List.replicate 7 (.step 0 ans) ++
    .start 0 .fork :: List.replicate 11 (.step 0 ans) ++ [.start 1 (.read 3 100), .step 1 ans]

theorem file_accounts_of_reader : ∃ s, Run NoKill s ∧ s.nproc = 2 ∧ s.slots 1 = 2 ∧
    s.temporaries 1 = 1 ∧ Accounts s := by
  have hcheck : (events NoKill pipeForkRead boot).checks (fun s =>
      decide (s.nproc = 2 ∧ s.slots 1 = 2 ∧ s.temporaries 1 = 1)) = true := by decide +kernel
  obtain ⟨s, hrun, hn, hslots, htemps⟩ := exists_of_decide hcheck
  have h := Run.boot.events hrun
  exact ⟨s, h, hn, hslots, htemps, (file_accounts h).1⟩

/-! ## Pipes of killed processes

A process that is killed loses its descriptors. The references of the system call in which it
was are lost, since the call is not resumed. -/

variable {k : ℕ} {e : End}

/-- Process `p` is a zombie, and its descriptors are freed. -/
def Terminated (s : State) (p : ℕ) : Prop := (s.proc p).zombie = true ∧ (s.proc p).fdTable = none

instance (s : State) (p : ℕ) : Decidable (Terminated s p) := inferInstanceAs (Decidable (_ ∧ _))

/-- Process `p` has a descriptor for an end of pipe `k`, or is in a system call that uses it. -/
def Uses (e : End) (k : ℕ) (s : State) (p : ℕ) : Prop :=
  ∃ f ∈ (s.proc p).refs, (s.heap.file f).map File.kind = some (e.kind k)

instance (e : End) (k : ℕ) (s : State) (p : ℕ) : Decidable (Uses e k s p) :=
  Multiset.decidableExistsMultiset

/-- No process is left that uses an end of pipe `k`. -/
def Abandoned (e : End) (k : ℕ) (s : State) : Prop := ∀ p < s.nproc, ¬Terminated s p → ¬Uses e k s p

instance (e : End) (k : ℕ) (s : State) : Decidable (Abandoned e k s) :=
  inferInstanceAs (Decidable (∀ p < _, _))

/-- What a process at the other end of the pipe sees when an end is released: `pipe_read` of an
empty pipe returns 0, and `pipe_write` returns `-EPIPE`. -/
def OtherEndSees (e : End) (r : Pipe.State ℕ) : Prop :=
  match e with
  | .reader => ∀ i bytes, bytes ≠ [] → (Pipe.writeCall i bytes r).point i = .out (-epipe)
  | .writer => ∀ i count, r.pipe.count = 0 → (Pipe.readSection i count r).point i = .out 0

/-- The end `e` of pipe `k` is released. -/
structure EndReleased (e : End) (k : ℕ) (s : State) : Prop where
  ends : s.heap.ends k e = 0
  other : ∀ r : Pipe.State ℕ, r.pipe.nreaders = s.heap.ends k .reader →
    r.pipe.nwriters = s.heap.ends k .writer → OtherEndSees e r

theorem EndReleased.of_ends (hends : s.heap.ends k e = 0) : EndReleased e k s := by
  refine ⟨hends, fun r hreaders hwriters => ?_⟩
  cases e with
  | reader =>
    intro i bytes hbytes
    rw [Pipe.writeCall, if_neg hbytes, if_pos (hreaders.trans hends)]
    exact Function.update_self ..
  | writer =>
    intro i count hcount
    rw [Pipe.readSection, if_neg (by omega), if_pos (hwriters.trans hends)]
    exact Function.update_self ..

theorem State.mem_refs {f : ℕ} (hf : f ∈ s.refs) : ∃ p < s.nproc, f ∈ (s.proc p).refs := by
  obtain ⟨p, hp, hmem⟩ := Multiset.mem_sum.mp hf
  exact ⟨p, Finset.mem_range.mp hp, hmem⟩

theorem Inv.refs_terminated (hi : Inv kills s) (hp : p < s.nproc) (hterm : Terminated s p) :
    (s.proc p).refs = 0 := by
  obtain ⟨hheld, hchild⟩ := hi.zombies p hp hterm.1
  rw [Proc.refs, Proc.slots, hterm.2, hchild, hheld]
  rfl

/-- An end that is not released belongs to a file, and the file has a reference. -/
theorem Inv.ends_of_abandoned (hi : Inv kills s) (ha : Abandoned e k s) : s.heap.ends k e = 0 := by
  by_contra hne
  obtain ⟨f, file, hf, hkind⟩ := hi.counts.pipes.has e k hne
  have hmem : f ∈ s.refs := Multiset.count_pos.mp (hi.counts.live f file hf).2
  obtain ⟨p, hp, hmem⟩ := State.mem_refs hmem
  refine ha p hp (fun hterm => ?_) ⟨f, hmem, by rw [hf, ← hkind]; rfl⟩
  rw [hi.refs_terminated hp hterm] at hmem
  cases hmem

/-- In all runs in which the processes that are killed are not in a system call that holds
references, an end of a pipe is released when no process is left that uses it. -/
theorem killed_ends_released (h : Run KillsIdle s) (ha : Abandoned e k s) : EndReleased e k s := by
  have hi : Inv True s := h.inv (fun _ _ _ _ => trivial) (fun _ _ _ hok => hok)
  exact EndReleased.of_ends (hi.ends_of_abandoned ha)

/-- The parent makes a pipe, forks, closes the read end and kills the child, which has got as far
as `child`. -/
def killChild (child : List Event) : List Event :=
  let ans : Answer := ⟨true, 1, 2, 0, 0⟩
  .start 0 .pipe2 :: List.replicate 7 (.step 0 ans) ++
    .start 0 .fork :: List.replicate 11 (.step 0 ans) ++
    .start 0 (.close 3) :: List.replicate 2 (.step 0 ans) ++ child ++
    .start 0 (.kill 9) :: List.replicate 4 (.step 0 ans)

/-- The child is killed in user mode. -/
theorem killed_ends_released_idle : ∃ s, Run KillsIdle s ∧ s.nproc = 2 ∧ Abandoned .reader 0 s ∧
    EndReleased .reader 0 s := by
  have hcheck : (events KillsIdle (killChild []) boot).checks (fun s =>
      decide (s.nproc = 2 ∧ Abandoned .reader 0 s)) = true := by decide +kernel
  obtain ⟨s, hrun, hn, ha⟩ := exists_of_decide hcheck
  have h := Run.boot.events hrun
  exact ⟨s, h, hn, ha, killed_ends_released h ha⟩

/-- The child is killed in `sys_read` of the empty pipe. -/
theorem killed_reader_keeps_end : ∃ s, Run (fun _ _ => True) s ∧ Terminated s 1 ∧
    Abandoned .reader 0 s ∧ ¬EndReleased .reader 0 s := by
  let ans : Answer := ⟨true, 1, 2, 0, 0⟩
  have hcheck : (events (fun _ _ => True) (killChild [.start 1 (.read 3 100), .step 1 ans])
      boot).checks (fun s => decide (Terminated s 1 ∧ Abandoned .reader 0 s ∧
        s.heap.ends 0 .reader = 1)) = true := by decide +kernel
  obtain ⟨s, hrun, hterm, ha, hends⟩ := exists_of_decide hcheck
  refine ⟨s, Run.boot.events hrun, hterm, ha, fun hreleased => ?_⟩
  exact absurd (hreleased.ends.symm.trans hends) (by decide)

end NoobKernel.Files
