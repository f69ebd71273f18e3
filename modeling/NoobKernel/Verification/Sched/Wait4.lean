import NoobKernel.Model.Wait4
import NoobKernel.Verification.Sched.Membership

/-! # `sys_wait4` and the exits of children -/

namespace NoobKernel.Wait4

open Library Sched Function List

variable {sched : Sched.State} {pt : Point} {fuel : ℕ}

/-- A process has looked at its children and sleeps, or is about to. -/
def Waiting (s : State) (p : ℕ) (pid : ℤ) : Prop :=
  s.point p = .waitWindow pid ∨ (s.point p = .waitAsleep pid ∧ s.sched.states p = .sleeping)

/-- A child is a zombie and has woken its parent. -/
def Gone (s : State) (c : ℕ) : Prop := s.sched.states c = .zombie ∧ s.point c = .exitDone

/-- The wakeup of `p` does not fall between the scan of its parent for a process such as `p`
and the entry of the parent into its wait queue. -/
def WakeSafe (p : ℕ) (s : State) : Prop :=
  ∀ a pid, (s.sched.proc p).parent = some a → s.point a = .waitWindow pid → ¬ Matches s.sched pid p

/-- A process sleeps on its own wait queue only. -/
def OwnQueues (s : State) (Q : Queue → List ℕ) : Prop :=
  ∀ wq, ∀ p ∈ Q (some wq), wq = .childWait p ∧ ∃ pid, s.point p = .waitAsleep pid

structure Inv (s : State) : Prop where
  queues : ∃ Q, InQueues s.sched Q ∧ OwnQueues s Q
  running : OneRuns s.sched
  parents : ∀ p, ∀ c ∈ (s.sched.proc p).children,
    (s.sched.proc c).parent = some p ∧ s.sched.states c ≠ .unused
  awake : ∀ p pid, Waiting s p pid → ∀ c ∈ (s.sched.proc p).children,
    Matches s.sched pid c → ¬ Gone s c

variable {s s' : State} {p c : ℕ} {pid : ℤ}

theorem kin_eq_iff {a b : Proc} :
    kin a = kin b ↔ a.pid = b.pid ∧ a.parent = b.parent ∧ a.children = b.children := by
  simp [kin]

/-- A child was one before and has not gone since, or is new. -/
def Child (s s' : State) (a c : ℕ) : Prop :=
  c ∈ (s.sched.proc a).children ∧ (s'.sched.proc c).pid = (s.sched.proc c).pid ∧
      (s'.sched.proc c).parent = (s.sched.proc c).parent ∧
      (s'.sched.states c = .unused → s.sched.states c = .unused) ∧ (Gone s' c → Gone s c) ∨
    (s'.sched.proc c).parent = some a ∧ s'.sched.states c ≠ .unused ∧ ¬ Gone s' c

section

variable (h : Inv s) (hqueues : ∃ Q, InQueues s'.sched Q ∧ OwnQueues s' Q) (hrun : OneRuns s'.sched)
  (hwait : ∀ p pid, Waiting s' p pid → Waiting s p pid)

include h hqueues hrun hwait

theorem Inv.step (hchild : ∀ a c, c ∈ (s'.sched.proc a).children → Child s s' a c) : Inv s' := by
  refine ⟨hqueues, hrun, fun a c hc => ?_, fun a pid hw c hc hmatch hg => ?_⟩
  · rcases hchild a c hc with ⟨hold, -, hparent, hused, -⟩ | ⟨hparent, hused, -⟩
    · exact ⟨hparent.trans (h.parents a c hold).1, fun hu => (h.parents a c hold).2 (hused hu)⟩
    · exact ⟨hparent, hused⟩
  · rcases hchild a c hc with ⟨hold, hpid, -, -, hgone⟩ | ⟨-, -, hgone⟩
    · unfold Matches at hmatch
      rw [hpid] at hmatch
      exact h.awake a pid (hwait a pid hw) c hold hmatch (hgone hg)
    · exact hgone hg

theorem Inv.keep (hkin : ∀ a, kin (s'.sched.proc a) = kin (s.sched.proc a))
    (hused : ∀ a, s'.sched.states a = .unused → s.sched.states a = .unused)
    (hgone : ∀ c, Gone s' c → Gone s c) : Inv s' := by
  refine h.step hqueues hrun hwait (fun a c hc => Or.inl ?_)
  rw [(kin_eq_iff.mp (hkin a)).2.2] at hc
  obtain ⟨hpid, hparent, -⟩ := kin_eq_iff.mp (hkin c)
  exact ⟨hc, hpid, hparent, hused c, hgone c⟩

end

theorem Inv.resched (h : Inv s) (hqueues : ∃ Q, InQueues sched Q ∧ OwnQueues s Q)
    (hrun : OneRuns sched) (hkin : ∀ a, kin (sched.proc a) = kin (s.sched.proc a))
    (hstates : ∀ a, sched.states a ≠ .running → sched.states a ≠ .runnable →
      sched.states a = s.sched.states a) :
    Inv { s with sched } := by
  have hback : ∀ a st, st ≠ .running → st ≠ .runnable → sched.states a = st →
      s.sched.states a = st := by
    intro a st h1 h2 ha
    rw [← hstates a (ha ▸ h1) (ha ▸ h2), ha]
  refine h.keep hqueues hrun ?_ hkin (fun a => hback a _ (by decide) (by decide)) ?_
  · intro a pid hw
    exact hw.imp_right (fun hs => ⟨hs.1, hback a _ (by decide) (by decide) hs.2⟩)
  · intro c hg
    exact ⟨hback c _ (by decide) (by decide) hg.1, hg.2⟩

theorem goto_point_self (p : ℕ) (pt : Point) (s : State) : (goto p pt s).point p = pt :=
  update_self _ _ _

theorem goto_point_ne {a : ℕ} (ha : a ≠ p) : (goto p pt s).point a = s.point a :=
  update_of_ne ha _ _

theorem waiting_of_goto {a : ℕ} (hwindow : ∀ pid, pt ≠ .waitWindow pid)
    (hasleep : ∀ pid, pt ≠ .waitAsleep pid) (h : Waiting (goto p pt s) a pid) :
    a ≠ p ∧ Waiting s a pid := by
  have hap : a ≠ p := by
    rintro rfl
    unfold Waiting at h
    rw [goto_point_self] at h
    rcases h with h | ⟨h, -⟩
    · exact hwindow pid h
    · exact hasleep pid h
  refine ⟨hap, ?_⟩
  unfold Waiting at h
  rwa [goto_point_ne hap] at h

theorem gone_of_goto (hdone : pt ≠ .exitDone) (h : Gone (goto p pt s) c) : c ≠ p ∧ Gone s c := by
  have hcp : c ≠ p := by
    rintro rfl
    exact hdone ((goto_point_self c pt s).symm.trans h.2)
  exact ⟨hcp, h.1, (goto_point_ne hcp).symm.trans h.2⟩

theorem OwnQueues.goto {Q : Queue → List ℕ} (h : OwnQueues s Q) (hp : ∀ wq, p ∉ Q (some wq))
    (pt : Point) : OwnQueues (goto p pt s) Q := by
  intro wq a ha
  have hap : a ≠ p := fun he => hp wq (he ▸ ha)
  rw [goto_point_ne hap]
  exact h wq a ha

section

variable (h : Inv s)

include h

theorem Inv.goto (hp : s.sched.states p = .running)
    (hwindow : ∀ pid, pt ≠ .waitWindow pid) (hasleep : ∀ pid, pt ≠ .waitAsleep pid)
    (hdone : pt ≠ .exitDone) : Inv (goto p pt s) := by
  obtain ⟨Q, hq, hown⟩ := h.queues
  refine h.keep ⟨Q, hq, hown.goto (fun wq => hq.notMem (hp ▸ unlinked_running) _) pt⟩ h.running
    (fun a pid hw => (waiting_of_goto hwindow hasleep hw).2) (fun _ => rfl) (fun _ hu => hu)
    (fun c hg => (gone_of_goto hdone hg).2)

/-! ## The steps -/

theorem Inv.spawn {parent : Option ℕ} (hp : s.sched.states p = .unused)
    (hself : parent ≠ some p) :
    Inv (Wait4.goto p (.other 0) { s with sched := Sched.spawn p pid parent s.sched }) := by
  obtain ⟨Q, hq, hown⟩ := h.queues
  have hnot : ∀ wq, p ∉ Q (some wq) := fun wq => hq.notMem (hp ▸ unlinked_unused) _
  have hstates : ∀ a, a ≠ p → (Sched.spawn p pid parent s.sched).states a = s.sched.states a := by
    intro a ha
    rw [spawn_states, update_of_ne ha]
  have hrunnable : (Sched.spawn p pid parent s.sched).states p = .runnable := by
    rw [spawn_states, update_self]
  have hnochild : ∀ a, p ∉ (s.sched.proc a).children := fun a ha => (h.parents a p ha).2 hp
  have hproc := fun a (ha : a ≠ p) => spawn_proc p pid parent s.sched ha
  have hnew : (Sched.spawn p pid parent s.sched).proc p =
      ⟨pid, .runnable, parent, [], 0, 0, 0, true⟩ := by
    cases parent with
    | none => simp [Sched.spawn, enqueueProc]
    | some q =>
      have hqp : p ≠ q := fun he => hself (he ▸ rfl)
      simp [Sched.spawn, enqueueProc, hqp]
  refine h.step ⟨_, hq.spawn hp, hown.goto hnot _⟩
    (h.running.change (spawn_cur ..) (spawn_states ..) (by decide)) ?_ ?_
  · intro a t hw
    obtain ⟨hap, hw⟩ := waiting_of_goto (by simp) (by simp) hw
    exact hw.imp_right (fun h => ⟨h.1, hstates a hap ▸ h.2⟩)
  · intro a c hc
    have hap : a ≠ p := by
      rintro rfl
      change c ∈ ((Sched.spawn a pid parent s.sched).proc a).children at hc
      rw [hnew] at hc
      cases hc
    change c ∈ ((Sched.spawn p pid parent s.sched).proc a).children at hc
    rw [hproc a hap] at hc
    rcases mem_append.mp hc with hold | hadd
    · have hcp : c ≠ p := fun he => hnochild a (he ▸ hold)
      refine Or.inl ⟨hold, ?_, ?_, fun hu => hstates c hcp ▸ hu, fun hg => ?_⟩
      · exact (congrArg Proc.pid (hproc c hcp) :)
      · exact (congrArg Proc.parent (hproc c hcp) :)
      · obtain ⟨-, hg⟩ := gone_of_goto (by simp) hg
        exact ⟨hstates c hcp ▸ hg.1, hg.2⟩
    · split at hadd
      · rename_i hpa
        obtain rfl := mem_singleton.mp hadd
        refine Or.inr ⟨(congrArg Proc.parent hnew).trans hpa, ?_, fun hg => ?_⟩
        · exact fun hu => absurd (hrunnable.symm.trans hu) (by decide)
        · exact (gone_of_goto (by simp) hg).1 rfl
      · cases hadd

theorem Inv.yield (hr : schedYield s.sched = .ok sched) : Inv { s with sched } := by
  obtain ⟨Q, hq, hown⟩ := h.queues
  obtain ⟨sched', Q', hyield, hinv, hwait, -⟩ := schedYield_spec hq h.running
  rw [hr] at hyield
  cases hyield
  refine h.resched ⟨Q', hinv.queues, ?_⟩ (fun a ha => (hinv.running a).mp ha) ?_ ?_
  · intro wq a ha
    rw [hwait (some wq) (by simp)] at ha
    exact hown wq a ha
  · intro a
    obtain ⟨x, hx, -⟩ := schedYield_proc hr a
    rw [hx]
    rfl
  · intro a hrun hrunnable
    obtain ⟨x, hx, hcase⟩ := schedYield_proc hr a
    unfold Sched.State.states at hrun hrunnable ⊢
    rw [hx] at hrun hrunnable ⊢
    rcases hcase with h | h | h
    · exact h
    · exact absurd h hrun
    · exact absurd h hrunnable

theorem Inv.reap (hp : s.sched.states p = .running)
    (hc : c ∈ (s.sched.proc p).children) (hz : s.sched.states c = .zombie) :
    Inv { s with sched := reap p c s.sched } := by
  obtain ⟨Q, hq, hown⟩ := h.queues
  have hcp : c ≠ p := by
    rintro rfl
    rw [hz] at hp
    cases hp
  have hchildren : ∀ a, ((Wait4.reap p c s.sched).proc a).children =
      if a = p then (s.sched.proc p).children.filter (· ≠ c) else (s.sched.proc a).children := by
    intro a
    by_cases hap : a = p <;> by_cases hac : a = c <;> simp_all [Wait4.reap]
  have hstates : (Wait4.reap p c s.sched).states = update s.sched.states c .unused := by
    unfold Wait4.reap
    rw [states_setProc_same rfl, states_setProc rfl]
  have hstates' : ∀ a, a ≠ c → (Wait4.reap p c s.sched).states a = s.sched.states a := by
    intro a hac
    rw [hstates, update_of_ne hac]
  have hchild : ∀ a d, d ∈ ((Wait4.reap p c s.sched).proc a).children →
      d ≠ c ∧ d ∈ (s.sched.proc a).children := by
    intro a d hd
    rw [hchildren] at hd
    split at hd
    next hap =>
      obtain ⟨hmem, hne⟩ := mem_filter.mp hd
      exact ⟨by simpa using hne, hap ▸ hmem⟩
    next hap =>
      refine ⟨?_, hd⟩
      rintro rfl
      have hpa := (h.parents a d hd).1
      rw [(h.parents p d hc).1, Option.some.injEq] at hpa
      exact hap hpa.symm
  have hpid : ∀ d, d ≠ c → ((Wait4.reap p c s.sched).proc d).pid = (s.sched.proc d).pid ∧
      ((Wait4.reap p c s.sched).proc d).parent = (s.sched.proc d).parent := by
    intro d hdc
    by_cases hdp : d = p <;> simp [Wait4.reap, hdc, hdp, hcp.symm]
  refine h.step ⟨Q, ?_, hown⟩ (h.running.change rfl hstates (by decide)) ?_ ?_
  · rw [InQueues, hstates]
    exact hq.change (hz ▸ unlinked_zombie) unlinked_unused
  · intro a t hw
    refine hw.imp_right (fun hs => ⟨hs.1, ?_⟩)
    have hs' : (Wait4.reap p c s.sched).states a = .sleeping := hs.2
    by_cases hac : a = c
    · rw [hac, hstates, update_self] at hs'
      cases hs'
    · rwa [hstates' a hac] at hs'
  · intro a d hd
    obtain ⟨hdc, hd⟩ := hchild a d hd
    exact Or.inl ⟨hd, (hpid d hdc).1, (hpid d hdc).2, fun hu => hstates' d hdc ▸ hu,
      fun hg => ⟨hstates' d hdc ▸ hg.1, hg.2⟩⟩

theorem Inv.scan {copied : Bool} (hp : s.sched.states p = .running) :
    Inv (scanChildren p pid copied s) := by
  unfold scanChildren
  split
  · rename_i c hfind
    have hmem := mem_of_find?_eq_some hfind
    have hz : s.sched.states c = .zombie := by
      have hprop := List.find?_some hfind
      rw [decide_eq_true_eq] at hprop
      exact hprop.2
    split
    · have hcp : p ≠ c := by
        rintro rfl
        rw [hz] at hp
        cases hp
      refine (h.reap hp hmem hz).goto ?_ (by simp) (by simp) (by simp)
      unfold Wait4.reap
      rw [states_setProc_same rfl, states_setProc rfl, update_of_ne hcp]
      exact hp
    · exact h.goto hp (by simp) (by simp) (by simp)
  · rename_i hfind
    split
    · obtain ⟨Q, hq, hown⟩ := h.queues
      refine ⟨⟨Q, hq, hown.goto (fun wq => hq.notMem (hp ▸ unlinked_running) _) _⟩, h.running,
        h.parents, ?_⟩
      intro a t hw c hc hmatch hg
      obtain ⟨hcp, hg⟩ := gone_of_goto (by simp) hg
      by_cases hap : a = p
      · subst hap
        unfold Waiting at hw
        rw [goto_point_self] at hw
        have hpid : pid = t := by
          rcases hw with hw | ⟨hw, -⟩
          · exact Point.waitWindow.inj hw
          · cases hw
        subst hpid
        have hnone := List.find?_eq_none.mp hfind c hc
        rw [decide_eq_true_eq] at hnone
        exact hnone ⟨hmatch, hg.1⟩
      · unfold Waiting at hw
        rw [goto_point_ne hap] at hw
        exact h.awake a t hw c hc hmatch hg
    · exact h.goto hp (by simp) (by simp) (by simp)

theorem Inv.stops {st : ProcState}
    (hqueues : ∃ Q, InQueues sched Q ∧ OwnQueues (Wait4.goto p pt { s with sched }) Q)
    (hstates : sched.states = update s.sched.states p st) (hrun : st ≠ .running)
    (hused : st ≠ .unused) (hcur : sched.cur = s.sched.cur)
    (hkin : ∀ a, kin (sched.proc a) = kin (s.sched.proc a)) (hdone : pt ≠ .exitDone)
    (hwait : ∀ pid, Waiting (Wait4.goto p pt { s with sched }) p pid → Waiting s p pid) :
    Inv (Wait4.goto p pt { s with sched }) := by
  have hself : sched.states p = st := by rw [hstates, update_self]
  have hother : ∀ a, a ≠ p → sched.states a = s.sched.states a := by
    intro a hap
    rw [hstates, update_of_ne hap]
  have hback : ∀ a st', st' ≠ st → sched.states a = st' → s.sched.states a = st' := by
    intro a st' hne ha
    have hap : a ≠ p := by
      rintro rfl
      exact hne (ha.symm.trans hself)
    rw [← hother a hap, ha]
  refine h.keep hqueues (h.running.change hcur hstates hrun) ?_ hkin
    (fun a => hback a _ hused.symm) ?_
  · intro a t hw
    by_cases hap : a = p
    · subst hap
      exact hwait t hw
    · unfold Waiting at hw
      rw [goto_point_ne hap] at hw
      exact hw.imp_right (fun hs => ⟨hs.1, hother a hap ▸ hs.2⟩)
  · intro c hg
    obtain ⟨hcp, hg⟩ := gone_of_goto hdone hg
    exact ⟨hother c hcp ▸ hg.1, hg.2⟩

theorem Inv.sleep (hp : s.sched.states p = .running) (hpoint : s.point p = .waitWindow pid) :
    Inv (Wait4.goto p (.waitAsleep pid) { s with sched := sleepOn (.childWait p) p s.sched }) := by
  obtain ⟨Q, hq, hown⟩ := h.queues
  have hun : Unlinked (s.sched.states p) := hp ▸ unlinked_running
  refine h.stops ⟨_, hq.sleepOn hun (.childWait p), ?_⟩ (sleepOn_states ..) (by decide) (by decide)
    rfl (kin_update rfl rfl) (by simp) ?_
  · intro wq a ha
    rcases mem_sleepOn ha with hold | ⟨rfl, rfl⟩
    · have hap : a ≠ p := fun he => hq.notMem hun _ (he ▸ hold)
      rw [goto_point_ne hap]
      exact hown wq a hold
    · exact ⟨rfl, pid, goto_point_self a _ _⟩
  · intro t hw
    unfold Waiting at hw
    rw [goto_point_self] at hw
    rcases hw with hw | ⟨hw, -⟩
    · cases hw
    · exact Or.inl (Point.waitAsleep.inj hw ▸ hpoint)

theorem Inv.moved (hm : ∀ Q, InQueues s.sched Q → ∃ Q', Moved s.sched Q sched Q') :
    Inv { s with sched } := by
  obtain ⟨Q, hq, hown⟩ := h.queues
  obtain ⟨Q', hmoved⟩ := hm Q hq
  exact h.resched ⟨Q', hmoved.queues, fun wq a ha => hown wq a (hmoved.subset wq ha)⟩
    (hmoved.woke.oneRuns h.running) hmoved.woke.same (fun a _ => hmoved.woke.states_eq)

omit h in
theorem exitStart_moved {closed : List WaitQueue} {status : ℤ} {t : Sched.State}
    (hr : exitStart fuel closed p status t = .ok sched) (Q : Queue → List ℕ) (hq : InQueues t Q) :
    ∃ Q', Moved t Q sched Q' := by
  set t1 := setProc p (fun pr => { pr with exitCode := status, futexUaddr := 0 }) t
  have hstates : t1.states = t.states := states_setProc_same rfl
  have h1 : Moved t Q t1 Q := by
    refine ⟨?_, Woke.of_states rfl hstates (kin_update rfl rfl), fun _ => List.Subset.refl _⟩
    rw [InQueues, hstates]
    exact hq
  obtain ⟨t2, hclose, hjoin⟩ := Outcome.bind_eq_ok.mp hr
  obtain ⟨Q2, h2⟩ := h1.queues.closeAll hclose
  obtain ⟨Q3, h3⟩ := h2.queues.wakeJoiners hjoin
  exact ⟨Q3, (h1.trans h2).trans h3⟩

theorem Inv.zombie (hp : s.sched.states p = .running) :
    Inv (Wait4.goto p .exitZombie { s with sched := setState p .zombie s.sched }) := by
  obtain ⟨Q, hq, hown⟩ := h.queues
  have hun : Unlinked (s.sched.states p) := hp ▸ unlinked_running
  refine h.stops ⟨Q, ?_, OwnQueues.goto hown (fun wq => hq.notMem hun _) _⟩
    (states_setState _ _ _) (by decide) (by decide) rfl (kin_update rfl rfl) (by simp) ?_
  · rw [InQueues, states_setState]
    exact hq.change hun unlinked_zombie
  · intro t hw
    exact absurd rfl (waiting_of_goto (by simp) (by simp) hw).1

/-- The wakeup in `sys_exit` reaches a parent that is asleep. -/
theorem Inv.parent_awake {a : ℕ} (hr : wakeParent fuel p s.sched = .ok sched)
    (hparent : (s.sched.proc p).parent = some a) : sched.states a ≠ .sleeping := by
  intro hsleep
  obtain ⟨Q, hq, hown⟩ := h.queues
  simp only [wakeParent, hparent] at hr
  obtain ⟨woken, kept, hfront⟩ := hq.wakeupOne hr
  have hold : s.sched.states a = .sleeping := by
    rw [← hfront.woke.states_eq (by rw [hsleep]; decide)]
    exact hsleep
  obtain ⟨wq, hmem⟩ := (hq.sleeping a).mp hold
  obtain ⟨rfl, -⟩ := hown wq a hmem
  have hne : woken ≠ [] := hfront.first (ne_nil_of_mem hmem)
  obtain ⟨b, woken', rfl⟩ := exists_cons_of_ne_nil hne
  have hb : b ∈ Q (some (.childWait a)) := by
    rw [hfront.split]
    simp
  have hab : a = b := WaitQueue.childWait.inj (hown _ b hb).1
  have hrunnable : sched.states b = .runnable := by
    refine (hfront.queues.runnable b).mpr ?_
    simp
  rw [← hab, hsleep] at hrunnable
  cases hrunnable

theorem Inv.wake (hpoint : s.point p = .exitZombie) (hsafe : WakeSafe p s)
    (hr : wakeParent fuel p s.sched = .ok sched) :
    Inv (Wait4.goto p .exitDone { s with sched }) := by
  have h1 : Inv { s with sched } := h.moved (fun _ hq => hq.wakeParent hr)
  obtain ⟨Q, hq, hown⟩ := h1.queues
  obtain ⟨Q0, hq0, -⟩ := h.queues
  obtain ⟨Q1, hmoved⟩ := hq0.wakeParent hr
  have hnot : ∀ wq, p ∉ Q (some wq) := by
    intro wq hmem
    obtain ⟨-, t, ht⟩ := hown wq p hmem
    rw [hpoint] at ht
    cases ht
  refine ⟨⟨Q, hq, hown.goto hnot _⟩, h1.running, h1.parents, ?_⟩
  intro a t hw c hc hmatch hg
  obtain ⟨hap, hw⟩ := waiting_of_goto (by simp) (by simp) hw
  by_cases hcp : c = p
  · subst hcp
    have hkin := kin_eq_iff.mp (hmoved.woke.same c)
    have hparent : (s.sched.proc c).parent = some a := by
      rw [← hkin.2.1]
      exact (h1.parents a c hc).1
    have hmatch' : Matches s.sched t c := by
      unfold Matches
      rw [← hkin.1]
      exact hmatch
    rcases hw with hwindow | ⟨-, hsleep⟩
    · rw [goto_point_ne hap] at hwindow
      exact hsafe a t hparent hwindow hmatch'
    · exact h.parent_awake hr hparent hsleep
  · refine h1.awake a t hw c hc hmatch ⟨hg.1, ?_⟩
    exact (goto_point_ne hcp).symm.trans hg.2

end

theorem Run.inv (h : Run WakeSafe s) : Inv s := by
  induction h with
  | boot =>
    refine ⟨⟨_, boot_queues, by simp [OwnQueues]⟩, ?_, ?_, ?_⟩
    · intro p hp
      cases hp
    · intro p c hc
      cases hc
    · intro p pid _ c hc
      cases hc
  | spawn p pid parent _ hp hself ih => exact ih.spawn hp hself
  | yield sched _ hr ih => exact ih.yield hr
  | wait4 p pid ret _ hp _ ih => exact ih.goto hp (by simp) (by simp) (by simp)
  | scan p pid copied _ hp _ ih => exact ih.scan hp
  | sleep p pid _ hp hpoint ih => exact ih.sleep hp hpoint
  | resume p pid _ hp _ ih => exact ih.goto hp (by simp) (by simp) (by simp)
  | exit fuel closed p status ret sched _ hp _ hr ih =>
    have hm := exitStart_moved hr
    refine (ih.moved hm).goto ?_ (by simp) (by simp) (by simp)
    obtain ⟨Q, hq, -⟩ := ih.queues
    obtain ⟨Q', hmoved⟩ := hm Q hq
    exact (hmoved.woke.running_iff p).mpr hp
  | zombie p _ hp _ ih => exact ih.zombie hp
  | wake fuel p sched _ _ hpoint hsafe hr ih => exact ih.wake hpoint hsafe hr

/-- In every run whose wakeups fall outside the window of the parent, no parent is asleep
while a child that it waits for is a zombie and has woken it. -/
theorem wait4_no_missed_exit (h : Run WakeSafe s) (hpoint : s.point p = .waitAsleep pid)
    (hsleep : s.sched.states p = .sleeping) :
    ∀ c ∈ (s.sched.proc p).children, Matches s.sched pid c → ¬ Gone s c :=
  h.inv.awake p pid (Or.inr ⟨hpoint, hsleep⟩)

/-- Process 1 runs with a child 2 in the run queue. -/
def parentRuns : State :=
  goto 2 (.other 0) (goto 1 (.other 0) ⟨Sched.spawn 2 2 (some 1)
    { setState 1 .running (setLinks (·.del (.proc 1)) (Sched.spawn 1 1 none boot)) with
      cur := some 1 }, fun _ => .other 0⟩)

theorem parentRuns_run (Ok : ℕ → State → Prop) : Run Ok parentRuns := by
  have h1 : Run Ok (goto 1 (.other 0) ⟨Sched.spawn 1 1 none boot, fun _ => .other 0⟩) :=
    .spawn 1 1 none .boot rfl (by simp)
  exact (h1.yield _ rfl).spawn 2 2 (some 1) rfl (by simp)

/-- The parent is asleep when its child becomes a zombie, and the wakeup is still to come. -/
theorem wait4_no_missed_exit_child : ∃ s, Run WakeSafe s ∧ s.point 1 = .waitAsleep (-1) ∧
    s.sched.states 1 = .sleeping ∧ s.sched.states 2 = .zombie ∧
      ∀ c ∈ (s.sched.proc 1).children, Matches s.sched (-1) c → ¬ Gone s c := by
  have h1 := (parentRuns_run WakeSafe).wait4 1 (-1) 0 rfl rfl
  have h2 := (h1.scan 1 (-1) true rfl rfl).sleep 1 (-1) rfl rfl
  have h3 := (h2.yield _ rfl).exit 1 [] 2 0 0 _ rfl rfl rfl
  have h4 := h3.zombie 2 rfl rfl
  exact ⟨_, h4, rfl, rfl, rfl, wait4_no_missed_exit h4 rfl rfl⟩

/-- The child exits after the parent has looked at it and before the parent sleeps. -/
theorem wait4_missed_exit : ∃ s, Run (fun _ _ => True) s ∧ s.point 1 = .waitAsleep (-1) ∧
    s.sched.states 1 = .sleeping ∧
      ∃ c ∈ (s.sched.proc 1).children, Matches s.sched (-1) c ∧ Gone s c := by
  have h1 := (parentRuns_run (fun _ _ => True)).wait4 1 (-1) 0 rfl rfl
  have h2 := (h1.scan 1 (-1) true rfl rfl).yield _ rfl
  have h3 := h2.exit 1 [] 2 0 0 _ rfl rfl rfl
  have h4 := (h3.zombie 2 rfl rfl).wake 1 2 _ rfl rfl trivial rfl
  have h5 := (h4.yield _ rfl).sleep 1 (-1) rfl rfl
  exact ⟨_, h5, rfl, rfl, 2, by decide, Or.inl rfl, rfl, rfl⟩

end NoobKernel.Wait4
