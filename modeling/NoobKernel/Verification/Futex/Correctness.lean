import NoobKernel.Model.Futex
import NoobKernel.Verification.Sched.Membership
import Mathlib.Data.Set.Card

/-! # The queues of the futex buckets

A thread in the wait queue of a bucket is asleep on the address in its `futex_uaddr`, and
the threads of a queue are in the order in which they went to sleep. -/

namespace NoobKernel.Futex

open Library Sched Function List

/-- A thread that went to sleep in `FUTEX_WAIT` on an address and was not woken. -/
def AsleepOn (s : State) (uaddr p : ℕ) : Prop :=
  s.sched.states p = .sleeping ∧ ∃ val, s.point p = .asleep uaddr val

structure Inv (s : State) (Q : Queue → List ℕ) : Prop where
  queues : InQueues s.sched Q
  running : OneRuns s.sched
  waiting : ∀ wq, ∀ p ∈ Q (some wq), wq = futexBucket (s.sched.proc p).futexUaddr ∧
    ∃ val, s.point p = .asleep (s.sched.proc p).futexUaddr val
  order : ∀ wq, (Q (some wq)).Pairwise (fun p q => s.since p < s.since q)
  past : ∀ wq, ∀ p ∈ Q (some wq), s.since p < s.clock

variable {vm : ℕ → ℕ} {s s' : State} {Q Q' : Queue → List ℕ} {p uaddr : ℕ} {val : Word}

def sleepers (s : State) (Q : Queue → List ℕ) (uaddr : ℕ) : List ℕ :=
  (Q (some (futexBucket uaddr))).filter (waitsFor s.sched uaddr)

theorem Inv.mem_sleepers (h : Inv s Q) : p ∈ sleepers s Q uaddr ↔ AsleepOn s uaddr p := by
  unfold sleepers waitsFor AsleepOn
  rw [mem_filter, decide_eq_true_eq]
  constructor
  · intro ⟨hmem, haddr⟩
    refine ⟨h.queues.state_eq hmem, ?_⟩
    obtain ⟨-, val, hpoint⟩ := h.waiting _ p hmem
    exact ⟨val, haddr ▸ hpoint⟩
  · intro ⟨hsleep, val, hpoint⟩
    obtain ⟨wq, hmem⟩ := (h.queues.sleeping p).mp hsleep
    obtain ⟨hbucket, val', hpoint'⟩ := h.waiting wq p hmem
    rw [hpoint] at hpoint'
    injection hpoint' with haddr
    rw [← haddr] at hbucket
    exact ⟨hbucket ▸ hmem, haddr.symm⟩

theorem Inv.sleepers_ordered (h : Inv s Q) :
    (sleepers s Q uaddr).Pairwise (fun p q => s.since p < s.since q) :=
  (h.order _).sublist filter_sublist

theorem Inv.keep (h : Inv s Q) (hq : InQueues s'.sched Q')
    (hrun : OneRuns s'.sched) (hsub : ∀ wq, (Q' (some wq)).Sublist (Q (some wq)))
    (hpoint : ∀ wq, ∀ p ∈ Q' (some wq), s'.point p = s.point p)
    (haddr : ∀ wq, ∀ p ∈ Q' (some wq), (s'.sched.proc p).futexUaddr = (s.sched.proc p).futexUaddr)
    (hsince : s'.since = s.since) (hclock : s'.clock = s.clock) : Inv s' Q' := by
  refine ⟨hq, hrun, ?_, ?_, ?_⟩
  · intro wq p hp
    rw [haddr wq p hp, hpoint wq p hp]
    exact h.waiting wq p ((hsub wq).subset hp)
  · intro wq
    rw [hsince]
    exact (h.order wq).sublist (hsub wq)
  · intro wq p hp
    rw [hsince, hclock]
    exact h.past wq p ((hsub wq).subset hp)

theorem Inv.notMem_of_point (h : Inv s Q) (hp : ∀ a v, s.point p ≠ .asleep a v)
    (wq : WaitQueue) : p ∉ Q (some wq) := by
  intro hmem
  obtain ⟨-, val, hpoint⟩ := h.waiting wq p hmem
  exact hp _ _ hpoint

theorem Inv.goto (h : Inv s Q) (hp : ∀ wq, p ∉ Q (some wq)) (pt : Point) : Inv (goto p pt s) Q := by
  refine h.keep h.queues h.running (fun _ => List.Sublist.refl _) ?_ (fun _ _ _ => rfl) rfl rfl
  intro wq q hq
  have hqp : q ≠ p := fun he => hp wq (he ▸ hq)
  exact update_of_ne hqp _ _

/-! ## Wakeups -/

/-- What `FUTEX_WAKE` does to the scheduler. -/
structure Wake (s : State) (Q : Queue → List ℕ) (uaddr n : ℕ) (ret : ℕ) (sched : Sched.State) :
    Prop where
  ret_eq : ret = min n (sleepers s Q uaddr).length
  queues : InQueues sched (movedTo Q (futexBucket uaddr) ((sleepers s Q uaddr).take n)
    ((Q (some (futexBucket uaddr))).filter (fun p => p ∉ (sleepers s Q uaddr).take n)))
  woke : Woke s.sched sched
  kept : ∀ p, p ∉ (sleepers s Q uaddr).take n → sched.proc p = s.sched.proc p

theorem Inv.wakeupAddr_returns (h : Inv s Q) (wq : WaitQueue) (uaddr : ℕ) (nr : ℤ) :
    ∃ fuel r, waitQueueWakeupAddr fuel wq uaddr nr s.sched = .ok r :=
  ⟨_, (waitQueueWakeupAddr_spec h.queues).1 (Nat.lt_succ_self _)⟩

theorem Inv.wakeupAddr {fuel : ℕ} {nr : ℤ} {r : ℕ × Sched.State} (h : Inv s Q)
    (hr : waitQueueWakeupAddr fuel (futexBucket uaddr) uaddr nr s.sched = .ok r) :
    Wake s Q uaddr nr.toNat r.1 r.2 := by
  obtain ⟨hret, hqueues, hwoke, hkept⟩ := (waitQueueWakeupAddr_spec h.queues).2 r hr
  rw [pick_snd (h.queues.nodup _), pick_fst, nil_append] at hqueues
  rw [pick_fst] at hret hkept
  refine ⟨?_, hqueues, hwoke, hkept⟩
  rw [hret, length_take]
  rfl

theorem Wake.inv {n ret : ℕ} {sched : Sched.State} (h : Inv s Q)
    (hw : Wake s Q uaddr n ret sched) :
    Inv { s with sched } (movedTo Q (futexBucket uaddr) ((sleepers s Q uaddr).take n)
      ((Q (some (futexBucket uaddr))).filter (fun p => p ∉ (sleepers s Q uaddr).take n))) := by
  refine h.keep hw.queues (hw.woke.oneRuns h.running) ?_ (fun _ _ _ => rfl) ?_ rfl rfl
  · intro wq
    by_cases hwq : wq = futexBucket uaddr
    · subst hwq
      rw [movedTo_self]
      exact filter_sublist
    · rw [movedTo_other hwq]
  · intro wq p hp
    have hnot : p ∉ (sleepers s Q uaddr).take n := by
      by_cases hwq : wq = futexBucket uaddr
      · subst hwq
        rw [movedTo_self, mem_filter, decide_eq_true_eq] at hp
        exact hp.2
      rw [movedTo_other hwq] at hp
      intro hmem
      have hbucket : p ∈ Q (some (futexBucket uaddr)) := mem_of_mem_filter (mem_of_mem_take hmem)
      exact hwq (Option.some.inj (h.queues.queue_unique hp hbucket))
    rw [hw.kept p hnot]

/-! ## Every step -/

theorem enterQueue_states (p uaddr : ℕ) (val : Word) (s : State) :
    (enterQueue p uaddr val s).sched.states = update s.sched.states p .sleeping := by
  change (sleepOn _ p _).states = _
  rw [sleepOn_states, states_setProc_same rfl]

theorem Inv.enterQueue (h : Inv s Q) (hp : s.sched.states p = .running) :
    Inv (enterQueue p uaddr val s) (update Q (some (futexBucket uaddr))
      (Q (some (futexBucket uaddr)) ++ [p])) := by
  set wq := futexBucket uaddr with hwq
  set sched := setProc p (fun pr => { pr with futexUaddr := uaddr }) s.sched with hsched
  have hstates : sched.states = s.sched.states := states_setProc_same rfl
  have hun : Unlinked (sched.states p) := by
    rw [hstates, hp]
    exact unlinked_running
  have hq : InQueues sched Q := by
    rw [InQueues, hstates]
    exact h.queues
  have hold : ∀ v a, a ∈ Q (some v) → a ≠ p := by
    rintro v a ha rfl
    exact hq.notMem hun (some v) ha
  have haddr : ∀ a, ((sleepOn wq p sched).proc a).futexUaddr =
      if a = p then uaddr else (s.sched.proc a).futexUaddr := by
    intro a
    by_cases hap : a = p
    · subst hap
      simp [sleepOn, hsched]
    · simp [sleepOn, hsched, hap]
  refine ⟨hq.sleepOn hun wq, h.running.change rfl (enterQueue_states ..) (by decide), ?_, ?_, ?_⟩
  · intro v a ha
    change v = futexBucket ((sleepOn wq p sched).proc a).futexUaddr ∧
      ∃ val', update s.point p (.asleep uaddr val) a =
        .asleep ((sleepOn wq p sched).proc a).futexUaddr val'
    rw [haddr]
    rcases mem_sleepOn ha with hin | ⟨rfl, rfl⟩
    · rw [if_neg (hold v a hin), update_of_ne (hold v a hin)]
      exact h.waiting v a hin
    · rw [if_pos rfl, update_self]
      exact ⟨hwq, val, rfl⟩
  · intro v
    change (update Q (some wq) (Q (some wq) ++ [p]) (some v)).Pairwise
      (fun a b => update s.since p s.clock a < update s.since p s.clock b)
    have hsame : ∀ u, (Q (some u)).Pairwise
        (fun a b => update s.since p s.clock a < update s.since p s.clock b) := by
      intro u
      refine (h.order u).imp_of_mem ?_
      intro a b ha hb hlt
      rwa [update_of_ne (hold u a ha), update_of_ne (hold u b hb)]
    by_cases hv : v = wq
    · subst hv
      rw [update_self, pairwise_append]
      refine ⟨hsame wq, pairwise_singleton _ _, ?_⟩
      intro a ha b hb
      rw [mem_singleton.mp hb, update_self, update_of_ne (hold wq a ha)]
      exact h.past wq a ha
    · rw [update_of_ne (by simpa using hv)]
      exact hsame v
  · intro v a ha
    change update s.since p s.clock a < s.clock + 1
    rcases mem_sleepOn ha with hin | ⟨rfl, -⟩
    · rw [update_of_ne (hold v a hin)]
      exact Nat.lt_succ_of_lt (h.past v a hin)
    · rw [update_self]
      exact Nat.lt_succ_self _

/-- The effect of `sys_futex` before the loop of `FUTEX_WAIT`. -/
theorem sysFutex_cases {fuel : ℕ} {op : Word} (hr : sysFutex fuel p uaddr op val s = .ok s') :
    (∃ pt, (∀ a v, pt ≠ .asleep a v) ∧ s' = goto p pt s) ∨
      ∃ r, waitQueueWakeupAddr fuel (futexBucket uaddr) uaddr val.toInt s.sched = .ok r ∧
        s' = goto p (.user r.1) { s with sched := r.2 } := by
  unfold sysFutex at hr
  dsimp only at hr
  split at hr
  · cases hr
    exact Or.inl ⟨_, fun _ _ => by simp, rfl⟩
  split at hr
  · cases hr
    exact Or.inl ⟨_, fun _ _ => by simp, rfl⟩
  split at hr
  · split at hr
    · cases hr
      exact Or.inl ⟨_, fun _ _ => by simp, rfl⟩
    · obtain ⟨r, hwake, hret⟩ := Outcome.bind_eq_ok.mp hr
      cases hret
      exact Or.inr ⟨r, hwake, rfl⟩
  · cases hr
    exact Or.inl ⟨_, fun _ _ => by simp, rfl⟩

theorem Inv.waitSection (h : Inv s Q) (m : ℕ → Option Word) (hp : s.sched.states p = .running) :
    ∃ Q', Inv (waitSection m p uaddr val s) Q' := by
  have hnot : ∀ wq, p ∉ Q (some wq) := fun wq => h.queues.notMem (hp ▸ unlinked_running) (some wq)
  unfold Futex.waitSection
  split
  · exact ⟨Q, h.goto hnot _⟩
  · split
    · exact ⟨Q, h.goto hnot _⟩
    · exact ⟨_, h.enterQueue hp⟩

theorem Inv.waitResume (h : Inv s Q) (m : ℕ → Option Word) (hp : s.sched.states p = .running) :
    Inv (waitResume m p uaddr val s) Q := by
  have hnot : ∀ wq, p ∉ Q (some wq) := fun wq => h.queues.notMem (hp ▸ unlinked_running) (some wq)
  set sched := setProc p (fun pr => { pr with futexUaddr := 0 }) s.sched with hsched
  have hstates : sched.states = s.sched.states := states_setProc_same rfl
  have h1 : Inv { s with sched } Q := by
    refine h.keep ?_ ?_ (fun _ => List.Sublist.refl _) (fun _ _ _ => rfl) ?_ rfl rfl
    · rw [InQueues, hstates]
      exact h.queues
    · intro a ha
      rw [hstates] at ha
      exact h.running a ha
    · intro wq a ha
      have hap : a ≠ p := fun he => hnot wq (he ▸ ha)
      simp [hsched, hap]
  unfold Futex.waitResume
  split
  · exact h1.goto hnot _
  · split <;> exact h1.goto hnot _

theorem Step.inv (hstep : Step vm s s') (h : Inv s Q) : ∃ Q', Inv s' Q' := by
  cases hstep with
  | spawn p pid parent hp =>
    have hnot : ∀ wq, p ∉ Q (some wq) := fun wq => h.queues.notMem (hp ▸ unlinked_unused) (some wq)
    have hsame : ∀ wq, update Q none (Q none ++ [p]) (some wq) = Q (some wq) :=
      fun wq => update_of_ne (by simp) _ _
    have h1 : Inv { s with sched := Sched.spawn p pid parent s.sched }
        (update Q none (Q none ++ [p])) := by
      refine h.keep (h.queues.spawn hp) ?_ (fun wq => by rw [hsame wq]) (fun _ _ _ => rfl) ?_
        rfl rfl
      · exact h.running.change (spawn_cur ..) (spawn_states ..) (by decide)
      · intro wq a ha
        have hap : a ≠ p := fun he => hnot wq (he ▸ ha)
        rw [spawn_proc p pid parent s.sched hap]
    exact ⟨_, h1.goto (fun wq => by rw [hsame wq]; exact hnot wq) _⟩
  | yield sched hr =>
    obtain ⟨sched', Q', hyield, hinv, hwait, -⟩ := schedYield_spec h.queues h.running
    rw [hr] at hyield
    cases hyield
    refine ⟨Q', h.keep hinv.queues (fun a ha => (hinv.running a).mp ha) ?_ (fun _ _ _ => rfl) ?_
      rfl rfl⟩
    · intro wq
      rw [hwait (some wq) (by simp)]
    · intro wq a _
      obtain ⟨x, hx, -⟩ := schedYield_proc hr a
      rw [hx]
  | store p uaddr w _ => exact ⟨Q, ⟨h.queues, h.running, h.waiting, h.order, h.past⟩⟩
  | call fuel p uaddr op val ret hpoint hr =>
    rcases sysFutex_cases hr with ⟨pt, -, rfl⟩ | ⟨r, hwake, rfl⟩
    · exact ⟨Q, h.goto (h.notMem_of_point (by simp [hpoint])) pt⟩
    · have h1 := (h.wakeupAddr hwake).inv h
      exact ⟨_, h1.goto (h1.notMem_of_point (by simp [hpoint])) _⟩
  | wait p uaddr val hp _ => exact h.waitSection _ hp
  | resume p uaddr val hp _ => exact ⟨Q, h.waitResume _ hp⟩

theorem Run.inv (h : Run vm s) : ∃ Q, Inv s Q := by
  induction h with
  | initial mem =>
    refine ⟨fun _ => [], boot_queues, ?_, by simp, by simp, by simp⟩
    intro p hp
    cases hp
  | step _ hstep ih =>
    obtain ⟨Q, h⟩ := ih
    exact hstep.inv h

/-! ## Correctness of futexes -/

open Outcome Relation

variable {s'' : State} {q : ℕ} {waiters l : List ℕ} {sched : Sched.State}

/-! ## What a step does to a thread -/

def Ready (s : State) (q : ℕ) : Prop := s.sched.states q = .runnable ∨ s.sched.states q = .running

/-- The thread has not gone to sleep, and stays ready if it was. -/
def Kept (s s' : State) (q : ℕ) : Prop :=
  (s'.sched.states q = .sleeping → s.sched.states q = .sleeping) ∧ (Ready s q → Ready s' q)

/-- The ways of a thread in one step. -/
inductive Moves (vm : ℕ → ℕ) (q : ℕ) (s s' : State) : Prop
  | stays : s'.point q = s.point q → Kept s s' q → Moves vm q s s'
  | returns (r : ℤ) : s'.point q = .user r → Moves vm q s s'
  | calls (r : ℤ) (a : ℕ) (v : Word) : s.point q = .user r → s'.point q = .waitTop a v →
      Moves vm q s s'
  | retries (a : ℕ) (v : Word) : s.point q = .asleep a v → s.mem (vm q) a = some v →
      s'.point q = .waitTop a v → Moves vm q s s'
  | sleeps (a : ℕ) (v : Word) : s.point q = .waitTop a v → s.mem (vm q) a = some v →
      s'.point q = .asleep a v → Moves vm q s s'

theorem Kept.of_eq (h : s'.sched.states q = s.sched.states q) : Kept s s' q := by
  unfold Kept Ready
  rw [h]
  exact ⟨id, id⟩

theorem goto_point_self {pt : Point} : (goto p pt s).point p = pt := update_self _ _ _

theorem goto_point_ne {pt : Point} (hq : q ≠ p) : (goto p pt s).point q = s.point q :=
  update_of_ne hq _ _

theorem Step.moves (hstep : Step vm s s') (h : Inv s Q) (q : ℕ) : Moves vm q s s' := by
  -- A step that moves `p` concerns another thread only by what it does to the scheduler.
  have hgoto : ∀ (p : ℕ) (pt : Point) (t : State), t.point = s.point → (q ≠ p → Kept s t q) →
      (q = p → Moves vm q s (goto p pt t)) → Moves vm q s (goto p pt t) := by
    intro p pt t hpoint hkept hself
    by_cases hq : q = p
    · exact hself hq
    · exact .stays ((goto_point_ne hq).trans (congrFun hpoint q)) (hkept hq)
  have huser : ∀ (p : ℕ) (r : ℤ) (t : State), t.point = s.point → (q ≠ p → Kept s t q) →
      Moves vm q s (goto p (.user r) t) := by
    intro p r t hpoint hkept
    refine hgoto p _ t hpoint hkept (fun hq => .returns r ?_)
    rw [hq, goto_point_self]
  cases hstep with
  | spawn p pid parent _ =>
    refine huser p 0 _ rfl (fun hq => .of_eq ?_)
    change (Sched.spawn p pid parent s.sched).states q = _
    rw [spawn_states, update_of_ne hq]
  | yield sched hr =>
    obtain ⟨x, hx, hcase⟩ := schedYield_proc hr q
    have hstate : sched.states q = x := by rw [Sched.State.states, hx]
    refine .stays rfl ?_
    unfold Kept Ready
    rw [hstate]
    rcases hcase with rfl | rfl | rfl
    · exact ⟨id, id⟩
    · simp
    · simp
  | store p a w _ => exact .stays rfl (.of_eq rfl)
  | call fuel p a op v ret hp hr =>
    rcases sysFutex_cases hr with ⟨pt, hpt, rfl⟩ | ⟨r, hwake, rfl⟩
    · refine hgoto p pt s rfl (fun _ => .of_eq rfl) (fun hq => ?_)
      subst hq
      cases pt with
      | user r => exact .returns r goto_point_self
      | waitTop a v => exact .calls ret a v hp goto_point_self
      | asleep a v => exact absurd rfl (hpt a v)
    · refine huser p _ _ rfl (fun _ => ?_)
      by_cases hsleep : s.sched.states q = .sleeping
      · refine ⟨fun _ => hsleep, fun hready => ?_⟩
        rw [Ready, hsleep] at hready
        simp at hready
      · exact .of_eq ((h.wakeupAddr hwake).woke.other q hsleep)
  | wait p a v hp hpoint =>
    unfold waitSection
    cases hcur : s.mem (vm p) a with
    | none => exact huser p _ s rfl (fun _ => .of_eq rfl)
    | some cur =>
      by_cases hne : cur ≠ v
      · simp only [if_pos hne]
        exact huser p _ s rfl (fun _ => .of_eq rfl)
      simp only [if_neg hne]
      rw [not_not.mp hne] at hcur
      by_cases hq : q = p
      · subst hq
        exact .sleeps a v hpoint hcur (update_self _ _ _)
      · refine .stays (update_of_ne hq _ _) (.of_eq ?_)
        rw [enterQueue_states, update_of_ne hq]
  | resume p a v hp hpoint =>
    unfold waitResume
    set sched := setProc p (fun pr => { pr with futexUaddr := 0 }) s.sched
    have hstates : sched.states = s.sched.states := states_setProc_same rfl
    have hkept : q ≠ p → Kept s { s with sched } q := fun _ => .of_eq (congrFun hstates q)
    cases hcur : s.mem (vm p) a with
    | none => exact huser p _ _ rfl hkept
    | some cur =>
      by_cases hne : cur ≠ v
      · simp only [if_pos hne]
        exact huser p _ _ rfl hkept
      simp only [if_neg hne]
      rw [not_not.mp hne] at hcur
      refine hgoto p _ _ rfl hkept (fun hq => ?_)
      subst hq
      exact .retries a v hpoint hcur goto_point_self

/-- A step puts a thread to sleep only while the word has the expected value. -/
theorem Step.asleep (hstep : Step vm s s') (h : Inv s Q)
    (hsleep : s'.sched.states q = .sleeping) (hpoint : s'.point q = .asleep uaddr val) :
    (s.sched.states q = .sleeping ∧ s.point q = .asleep uaddr val) ∨
      s.mem (vm q) uaddr = some val := by
  cases hstep.moves h q with
  | stays hsame hkept => exact Or.inl ⟨hkept.1 hsleep, hsame ▸ hpoint⟩
  | returns r hr => cases hr.symm.trans hpoint
  | calls r a v _ htop | retries a v _ _ htop => cases htop.symm.trans hpoint
  | sleeps a v _ hmem hnew =>
    cases hnew.symm.trans hpoint
    exact Or.inr hmem

/-- Steps along which a condition holds in every state reached. -/
inductive StepsWhile (vm : ℕ → ℕ) (P : State → Prop) (s : State) : State → Prop
  | refl : StepsWhile vm P s s
  | step {t u : State} : StepsWhile vm P s t → Step vm t u → P u → StepsWhile vm P s u

/-- Nobody falls asleep while the word has another value. -/
theorem StepsWhile.awake (hsteps : StepsWhile vm (fun t => ∀ q, t.mem (vm q) uaddr ≠ some val) s s')
    (h : Inv s Q) (hmem : ∀ q, s.mem (vm q) uaddr ≠ some val)
    (hawake : ∀ q, s.point q = .asleep uaddr val → s.sched.states q ≠ .sleeping) :
    ∀ q, s'.point q = .asleep uaddr val → s'.sched.states q ≠ .sleeping := by
  have hall : (∃ Q', Inv s' Q') ∧ (∀ q, s'.mem (vm q) uaddr ≠ some val) ∧
      ∀ q, s'.point q = .asleep uaddr val → s'.sched.states q ≠ .sleeping := by
    induction hsteps with
    | refl => exact ⟨⟨Q, h⟩, hmem, hawake⟩
    | step _ hstep hP ih =>
      obtain ⟨⟨Q1, h1⟩, hmem1, hawake1⟩ := ih
      refine ⟨hstep.inv h1, hP, fun q hpoint hsleep => ?_⟩
      rcases hstep.asleep h1 hsleep hpoint with ⟨hs, hp⟩ | hword
      · exact hawake1 q hp hs
      · exact hmem1 q hword
  exact hall.2.2

/-! ## What a wakeup does -/

/-- `FUTEX_WAKE` by `p` moves the first `n` of the waiters to the run queue, in the order in
which they went to sleep, and touches no other thread. -/
structure WakesFirst (s s' : State) (p uaddr n : ℕ) (waiters : List ℕ) : Prop where
  asleep : ∀ q, q ∈ waiters ↔ AsleepOn s uaddr q
  order : waiters.Pairwise (fun a b => s.since a < s.since b)
  ret : s'.point p = .user (min n waiters.length : ℕ)
  runq : ∀ run : List ℕ, Ring s.sched.links .runq (run.map Node.proc) →
    Ring s'.sched.links .runq ((run ++ waiters.take n).map Node.proc)
  woken : ∀ q ∈ waiters.take n, s'.sched.states q = .runnable
  others : ∀ q, q ∉ waiters.take n → s'.sched.proc q = s.sched.proc q
  points : ∀ q, q ≠ p → s'.point q = s.point q

theorem Wake.wakesFirst {n ret : ℕ} (h : Inv s Q) (hw : Wake s Q uaddr n ret sched) :
    WakesFirst s (goto p (.user ret) { s with sched }) p uaddr n (sleepers s Q uaddr) := by
  refine ⟨fun q => h.mem_sleepers, h.sleepers_ordered, ?_, ?_, ?_, hw.kept,
    fun q hq => goto_point_ne hq⟩
  · simp [Futex.goto, hw.ret_eq]
  · intro run hring
    have hrun : run.map Node.proc = (Q none).map Node.proc := hring.eq_of_ring (h.queues.ring none)
    have hinj : Injective Node.proc := fun a b hab => Node.proc.inj hab
    rw [List.map_injective_iff.mpr hinj hrun]
    have hring' := hw.queues.ring none
    rwa [movedTo_none] at hring'
  · intro q hq
    exact (hw.queues.runnable q).mpr (by rw [movedTo_none]; exact List.mem_append_right _ hq)

theorem sysFutex_wake {op : Word} (h : Inv s Q) (haddr : uaddr &&& 3 = 0)
    (hop : op &&& futexCmdMask = 1 ∨ op &&& futexCmdMask = 10) :
    (∃ fuel s', sysFutex fuel p uaddr op val s = .ok s') ∧
    ∀ fuel s', sysFutex fuel p uaddr op val s = .ok s' →
      ∃ waiters, WakesFirst s s' p uaddr val.toInt.toNat waiters ∧
        ((∀ a v, s.point p ≠ .asleep a v) → ∃ Q', Inv s' Q') := by
  have hnot : ¬ (op &&& futexCmdMask = 0 ∨ op &&& futexCmdMask = 9) := by
    rcases hop with ho | ho <;> rw [ho] <;> decide
  have heq : ∀ fuel, sysFutex fuel p uaddr op val s =
      (waitQueueWakeupAddr fuel (futexBucket uaddr) uaddr val.toInt s.sched >>= fun r =>
        .ok (goto p (.user r.1) { s with sched := r.2 })) := by
    intro fuel
    unfold sysFutex
    rw [if_neg (not_not.mpr haddr), if_neg hnot, if_pos hop]
    split
    · rename_i hn
      rw [waitQueueWakeupAddr, if_pos hn, ok_bind]
      rfl
    · rfl
  refine ⟨?_, ?_⟩
  · obtain ⟨fuel, r, hr⟩ := h.wakeupAddr_returns (futexBucket uaddr) uaddr val.toInt
    exact ⟨fuel, _, by rw [heq, hr, ok_bind]⟩
  · intro fuel s' hr
    rw [heq] at hr
    obtain ⟨r, hwake, hret⟩ := bind_eq_ok.mp hr
    cases hret
    have hw := h.wakeupAddr hwake
    exact ⟨_, hw.wakesFirst h, fun hnot => ⟨_, (hw.inv h).goto ((hw.inv h).notMem_of_point hnot) _⟩⟩

section

variable {n : ℕ} (hw : WakesFirst s s' p uaddr n waiters)

include hw

theorem WakesFirst.nodup : waiters.Nodup :=
  hw.order.imp (fun hlt he => (he ▸ hlt).false)

theorem WakesFirst.ncard_eq : {q | AsleepOn s uaddr q}.ncard = waiters.length := by
  have hset : {q | AsleepOn s uaddr q} = (waiters.toFinset : Set ℕ) := by
    simp [hw.asleep]
  rw [hset, Set.ncard_coe_finset, List.toFinset_card_of_nodup hw.nodup]

/-- After a wakeup of all waiters nobody is asleep on the address. -/
theorem WakesFirst.all_awake (hp : ∀ a v, s.point p ≠ .asleep a v) (hle : waiters.length ≤ n)
    (hpoint : s'.point q = .asleep uaddr val) : s'.sched.states q ≠ .sleeping := by
  intro hsleep
  have hqp : q ≠ p := by
    rintro rfl
    rw [hw.ret] at hpoint
    cases hpoint
  rw [hw.points q hqp] at hpoint
  have htake : waiters.take n = waiters := List.take_of_length_le hle
  by_cases hq : q ∈ waiters
  · have hrun := hw.woken q (by rwa [htake])
    rw [hrun] at hsleep
    cases hsleep
  have hsame := hw.others q (by rwa [htake])
  have hold : s.sched.states q = .sleeping := by
    unfold Sched.State.states at hsleep ⊢
    rwa [← hsame]
  exact hq ((hw.asleep q).mpr ⟨hold, val, hpoint⟩)

end

/-- For threads of one address space: `FUTEX_WAKE` returns, wakes the first waiters, and
when it wakes them all while the word differs from `v`, then no thread is asleep in a
`FUTEX_WAIT` for `v` until the word is set to `v`. -/
theorem futex_no_lost_wakeup {op : Word} {ret : ℤ} (h : Run (fun _ => 0) s)
    (hp : s.point p = .user ret) (haddr : uaddr &&& 3 = 0)
    (hop : op &&& futexCmdMask = 1 ∨ op &&& futexCmdMask = 10) :
    (∃ fuel s', sysFutex fuel p uaddr op val s = .ok s') ∧
    ∀ fuel s', sysFutex fuel p uaddr op val s = .ok s' →
      (∃ waiters, WakesFirst s s' p uaddr val.toInt.toNat waiters) ∧
      ({q | AsleepOn s uaddr q}.ncard ≤ val.toInt → ∀ v, s'.mem 0 uaddr ≠ some v →
        ∀ s'', StepsWhile (fun _ => 0) (fun t => t.mem 0 uaddr ≠ some v) s' s'' →
          ∀ q, s''.point q = .asleep uaddr v → s''.sched.states q ≠ .sleeping) := by
  obtain ⟨Q, hinv⟩ := h.inv
  obtain ⟨hreturns, heffect⟩ := sysFutex_wake (p := p) hinv haddr hop
  refine ⟨hreturns, ?_⟩
  intro fuel s' hr
  obtain ⟨waiters, hfirst, hinv'⟩ := heffect fuel s' hr
  refine ⟨⟨waiters, hfirst⟩, ?_⟩
  intro hcard v hmem s'' hsteps
  rw [hfirst.ncard_eq] at hcard
  have hnot : ∀ a v, s.point p ≠ .asleep a v := by simp [hp]
  obtain ⟨Q', hinv'⟩ := hinv' hnot
  have hsteps' : StepsWhile (fun _ => 0) (fun t => ∀ _ : ℕ, t.mem 0 uaddr ≠ some v) s' s'' := by
    simpa only [forall_const] using hsteps
  refine hsteps'.awake hinv' (fun _ => hmem) ?_
  intro q hq
  exact hfirst.all_awake hnot (by omega) hq

/-! ## Two threads -/

/-- Thread 1 runs in `FUTEX_WAIT`. -/
def oneWaits (mem : ℕ → ℕ → Option Word) : State :=
  goto 1 (.waitTop 4096 0) (goto 1 (.user 0) { initial mem with
    sched := { setState 1 .running (setLinks (·.del (.proc 1)) (Sched.spawn 1 1 none boot)) with
      cur := some 1 } })

/-- Thread 1 is asleep on a word, and thread 2 is ready. -/
def oneAsleep (mem : ℕ → ℕ → Option Word) : State :=
  goto 2 (.user 0) { enterQueue 1 4096 0 (oneWaits mem) with
    sched := Sched.spawn 2 2 none (enterQueue 1 4096 0 (oneWaits mem)).sched }

theorem oneAsleep_run {mem : ℕ → ℕ → Option Word} (hmem : mem (vm 1) 4096 = some 0) :
    Run vm (oneAsleep mem) := by
  have h1 : Run vm (goto 1 (.user 0) { initial mem with sched := Sched.spawn 1 1 none boot }) :=
    .step (.initial mem) (.spawn 1 1 none rfl)
  have h2 : Run vm (oneWaits mem) := (h1.step (.yield _ rfl)).step (.call 0 1 4096 0 0 0 rfl rfl)
  have hwait : waitSection (mem (vm 1)) 1 4096 0 (oneWaits mem) =
      enterQueue 1 4096 0 (oneWaits mem) := by
    simp [waitSection, hmem]
  have h3 : Run vm (waitSection (mem (vm 1)) 1 4096 0 (oneWaits mem)) :=
    h2.step (.wait 1 4096 0 rfl rfl)
  rw [hwait] at h3
  exact h3.step (.spawn 2 2 none rfl)

/-- The word is 1, so the woken thread 1 sleeps no more in its wait for 0. -/
theorem futex_no_lost_wakeup_one : ∃ s s' : State,
    AsleepOn s 4096 1 ∧ sysFutex 2 2 4096 1 2 s = .ok s' ∧ s'.mem 0 4096 = some 1 ∧
      s'.point 2 = .user 1 ∧
      ∀ s'', StepsWhile (fun _ => 0) (fun t => t.mem 0 4096 ≠ some 0) s' s'' →
        ∀ q, s''.point q = .asleep 4096 0 → s''.sched.states q ≠ .sleeping := by
  set s0 := oneAsleep (fun _ _ => some 0) with hs0
  have hstep : Step (fun _ => 0) s0 { s0 with
      mem := update s0.mem 0 (update (s0.mem 0) 4096 (some 1)) } :=
    .store 2 4096 1 (by simp [hs0, oneAsleep, goto, enterQueue, oneWaits, initial])
  set s := { s0 with
      mem := update s0.mem 0 (update (s0.mem 0) 4096 (some 1)) } with hs
  have hrun : Run (fun _ => 0) s := (oneAsleep_run rfl).step hstep
  have hpoint : s.point 2 = .user 0 := rfl
  have hcall : ∃ s', sysFutex 2 2 4096 1 2 s = .ok s' ∧ s'.point 2 = .user 1 ∧
      s'.mem 0 4096 = some 1 := ⟨_, rfl, rfl, by simp [goto, hs]⟩
  obtain ⟨s', hr, hret, hmem⟩ := hcall
  obtain ⟨⟨waiters, hfirst⟩, hlost⟩ :=
    (futex_no_lost_wakeup hrun hpoint (by decide) (by decide)).2 2 s' hr
  have hlen := hfirst.ret
  rw [hret, Point.user.injEq] at hlen
  have htwo : (2 : Word).toInt = 2 := by decide
  refine ⟨s, s', ⟨rfl, 0, rfl⟩, hr, hmem, hret, hlost ?_ 0 (by rw [hmem]; decide)⟩
  rw [hfirst.ncard_eq]
  omega

/-! ## What the count of a wakeup is worth -/

/-- When the thread takes a step behind its sleep, the word has another value than the one that it
waits for. -/
def Changed (vm : ℕ → ℕ) (q : ℕ) (s s' : State) : Prop :=
  ∀ a v, s.point q = .asleep a v → s'.point q ≠ s.point q → s.mem (vm q) a ≠ some v

/-- In all steps that `Ok` allows, the thread is ready and behind its sleep until it returns. -/
def Released (vm : ℕ → ℕ) (Ok : State → State → Prop) (s : State) (uaddr q : ℕ) : Prop :=
  ∀ t, ReflTransGen (fun t u => Step vm t u ∧ Ok t u ∧ ∀ r, u.point q ≠ .user r) s t →
    Ready t q ∧ ∃ val, t.point q = .asleep uaddr val

/-- As many sleeping calls as `FUTEX_WAKE` has counted need no other wakeup. -/
def CountIsReal (vm : ℕ → ℕ) (Ok : ℕ → State → State → Prop) (s s' : State) (p uaddr : ℕ) : Prop :=
  ∃ woken : List ℕ, woken.Nodup ∧ s'.point p = .user woken.length ∧
    ∀ q ∈ woken, AsleepOn s uaddr q ∧ Released vm (Ok q) s' uaddr q

theorem Step.released (hstep : Step vm s s') (h : Inv s Q) (hchanged : Changed vm q s s')
    (hstay : ∀ r, s'.point q ≠ .user r) (hready : Ready s q)
    (hpoint : s.point q = .asleep uaddr val) : Ready s' q ∧ s'.point q = .asleep uaddr val := by
  cases hstep.moves h q with
  | stays hsame hkept => exact ⟨hkept.2 hready, hsame.trans hpoint⟩
  | returns r hr => exact absurd hr (hstay r)
  | calls r a v huser _ => cases huser.symm.trans hpoint
  | retries a v hold hmem htop =>
    exact absurd hmem (hchanged a v hold (by rw [htop, hold]; simp))
  | sleeps a v htop _ _ => cases htop.symm.trans hpoint

theorem Inv.released (h : Inv s Q) (hready : Ready s q) (hpoint : s.point q = .asleep uaddr val) :
    Released vm (Changed vm q) s uaddr q := by
  intro t hsteps
  have hall : (∃ Q', Inv t Q') ∧ Ready t q ∧ t.point q = .asleep uaddr val := by
    induction hsteps with
    | refl => exact ⟨⟨Q, h⟩, hready, hpoint⟩
    | tail _ hstep ih =>
      obtain ⟨⟨Q1, h1⟩, hready1, hpoint1⟩ := ih
      obtain ⟨hstep, hchanged, hstay⟩ := hstep
      exact ⟨hstep.inv h1, hstep.released h1 hchanged hstay hready1 hpoint1⟩
  exact ⟨hall.2.1, val, hall.2.2⟩

/-- The count is real in all runs in which every woken thread finds another value in the word. -/
theorem futex_wake_count {op : Word} {ret : ℤ} {fuel : ℕ} (h : Run vm s) (hp : s.point p = .user ret)
    (haddr : uaddr &&& 3 = 0) (hop : op &&& futexCmdMask = 1 ∨ op &&& futexCmdMask = 10)
    (hr : sysFutex fuel p uaddr op val s = .ok s') : CountIsReal vm (Changed vm) s s' p uaddr := by
  obtain ⟨Q, hinv⟩ := h.inv
  obtain ⟨waiters, hw, hinv'⟩ := (sysFutex_wake hinv haddr hop).2 fuel s' hr
  have hnot : ∀ a v, s.point p ≠ .asleep a v := by simp [hp]
  obtain ⟨Q', hinv'⟩ := hinv' hnot
  refine ⟨waiters.take val.toInt.toNat, hw.nodup.sublist (List.take_sublist _ _), ?_, ?_⟩
  · rw [hw.ret, List.length_take]
  · intro q hq
    obtain ⟨hsleep, v, hpoint⟩ := (hw.asleep q).mp (List.mem_of_mem_take hq)
    have hqp : q ≠ p := fun he => hnot _ _ (he ▸ hpoint)
    exact ⟨⟨hsleep, v, hpoint⟩,
      hinv'.released (Or.inl (hw.woken q hq)) ((hw.points q hqp).trans hpoint)⟩

/-- Thread 2 wakes thread 1, and the count is one. -/
theorem futex_wake_count_one : ∃ s s' : State, AsleepOn s 4096 1 ∧
    sysFutex 2 2 4096 1 1 s = .ok s' ∧ s'.point 2 = .user 1 ∧
      CountIsReal (fun _ => 0) (Changed fun _ => 0) s s' 2 4096 := by
  have hcall : ∃ s', sysFutex 2 2 4096 1 1 (oneAsleep (fun _ _ => some 0)) = .ok s' ∧
      s'.point 2 = .user 1 := ⟨_, rfl, rfl⟩
  obtain ⟨s', hr, hret⟩ := hcall
  exact ⟨_, s', ⟨rfl, 0, rfl⟩, hr, hret,
    futex_wake_count (oneAsleep_run rfl) rfl (by decide) (by decide) hr⟩

/-- The word still has the value that thread 1 waits for. After the wakeup it goes back to sleep
in the same call. -/
theorem futex_wake_count_lost : ∃ s s' : State, Run (fun _ => 0) s ∧
    sysFutex 2 2 4096 1 1 s = .ok s' ∧ s'.point 2 = .user 1 ∧
      ¬ CountIsReal (fun _ => 0) (fun _ _ _ => True) s s' 2 4096 := by
  have hcall : ∃ s' t, sysFutex 2 2 4096 1 1 (oneAsleep (fun _ _ => some 0)) = .ok s' ∧
      s'.point 2 = .user 1 ∧ t.sched.states 1 = .sleeping ∧
      ReflTransGen (fun t u => Step (fun _ => 0) t u ∧ True ∧ ∀ r, u.point 1 ≠ .user r) s' t := by
    refine ⟨_, _, rfl, rfl, ?_, ((((ReflTransGen.refl.tail
      ⟨.yield _ rfl, trivial, ?_⟩).tail ⟨.yield _ rfl, trivial, ?_⟩).tail
      ⟨.resume 1 4096 0 rfl rfl, trivial, ?_⟩).tail ⟨.wait 1 4096 0 rfl rfl, trivial, ?_⟩)⟩
    · rfl
    all_goals intro r hr; cases hr
  obtain ⟨s', t, hr, hret, hsleep, hsteps⟩ := hcall
  refine ⟨_, s', oneAsleep_run rfl, hr, hret, ?_⟩
  rintro ⟨woken, -, hlen, hall⟩
  rw [hret, Point.user.injEq] at hlen
  obtain ⟨q, rfl⟩ := List.length_eq_one_iff.mp (by exact_mod_cast hlen.symm : woken.length = 1)
  obtain ⟨⟨hq, v, hpoint⟩, hreleased⟩ := hall q (by simp)
  have hone : q = 1 := by
    by_contra hne
    by_cases htwo : q = 2
    · subst htwo
      cases hpoint
    · simp [oneAsleep, goto, enterQueue, oneWaits, initial, hne, htwo] at hpoint
  subst hone
  have hready := (hreleased t hsteps).1
  rw [Ready, hsleep] at hready
  simp at hready

/-! ## Futexes and address spaces

A bucket and the match in `wait_queue_wakeup_addr` go by the virtual address only. -/

open List

variable {vm : ℕ → ℕ} {s s' : State} {p q uaddr n : ℕ} {val : Word}

/-- `FUTEX_WAKE` by `p` has the effect and the result that it has without the waiters of
other address spaces. -/
structure Isolated (vm : ℕ → ℕ) (s s' : State) (p uaddr n : ℕ) (own : List ℕ) : Prop where
  asleep : ∀ q, q ∈ own ↔ AsleepOn s uaddr q ∧ vm q = vm p
  order : own.Pairwise (fun a b => s.since a < s.since b)
  ret : s'.point p = .user (min n own.length : ℕ)
  woken : ∀ q ∈ own.take n, s'.sched.states q = .runnable
  others : ∀ q, q ∉ own.take n → s'.sched.proc q = s.sched.proc q

theorem Isolated.mem_take {own : List ℕ} (h : Isolated vm s s' p uaddr n own)
    (hsleep : s.sched.states q = .sleeping) (hrun : s'.sched.states q = .runnable) :
    q ∈ own.take n := by
  by_contra hnot
  unfold Sched.State.states at hrun hsleep
  rw [h.others q hnot, hsleep] at hrun
  cases hrun

/-- A thread is among the `n` that have been asleep on an address for the longest time. -/
def AmongOldest (s : State) (uaddr n q : ℕ) : Prop :=
  AsleepOn s uaddr q ∧ {a | AsleepOn s uaddr a ∧ s.since a < s.since q}.ncard < n

theorem mem_take_iff {f : ℕ → ℕ} (hl : l.Pairwise (fun a b => f a < f b)) (q : ℕ) :
    ∀ n, q ∈ l.take n ↔ q ∈ l ∧ {a | a ∈ l ∧ f a < f q}.ncard < n := by
  intro n
  by_cases hq : q ∈ l
  · obtain ⟨front, back, rfl⟩ := append_of_mem hq
    obtain ⟨hfront, hback, hless⟩ := pairwise_append.mp hl
    have hset : {a | a ∈ front ++ q :: back ∧ f a < f q} = (front.toFinset : Set ℕ) := by
      ext a
      simp only [mem_append, mem_cons, Set.mem_ofPred_eq, coe_toFinset]
      constructor
      · rintro ⟨ha | rfl | ha, hlt⟩
        · exact ha
        · exact absurd hlt (lt_irrefl _)
        · exact absurd hlt (lt_asymm (rel_of_pairwise_cons hback ha))
      · exact fun ha => ⟨Or.inl ha, hless a ha q mem_cons_self⟩
    have hnodup : front.Nodup := hfront.imp fun hlt he => (he ▸ hlt).false
    have hnot : q ∉ front := fun hmem => lt_irrefl _ (hless q hmem q mem_cons_self)
    rw [hset, Set.ncard_coe_finset, toFinset_card_of_nodup hnodup, take_append, mem_append,
      and_iff_right hq, or_iff_right (fun hmem => hnot (mem_of_mem_take hmem))]
    rcases Nat.lt_or_ge front.length n with hlt | hge
    · obtain ⟨k, hk⟩ : ∃ k, n - front.length = k + 1 := ⟨n - front.length - 1, by omega⟩
      simp [hk, hlt]
    · simp [Nat.sub_eq_zero_of_le hge, hge]
  · exact iff_of_false (fun hmem => hq (mem_of_mem_take hmem)) (fun hand => hq hand.1)

theorem WakesFirst.amongOldest_iff (hw : WakesFirst s s' p uaddr n waiters) (q : ℕ) :
    AmongOldest s uaddr n q ↔ q ∈ waiters.take n := by
  unfold AmongOldest
  rw [mem_take_iff hw.order]
  simp only [hw.asleep]

theorem filter_take_of_forall {f : ℕ → Bool} (h : ∀ q ∈ l.take n, f q = true) :
    (l.filter f).take n = l.take n := by
  induction l generalizing n with
  | nil => simp
  | cons a l ih =>
    cases n with
    | zero => simp
    | succ n =>
      rw [take_succ_cons] at h ⊢
      have ha : f a = true := h a mem_cons_self
      rw [filter_cons_of_pos ha, take_succ_cons]
      rw [ih (fun q hq => h q (mem_cons_of_mem a hq))]

/-- A wakeup is isolated if and only if the threads that have been asleep on the address for
the longest time belong to the caller's address space. -/
theorem futex_isolated_iff {op : Word} {fuel : ℕ} (h : Run vm s) (haddr : uaddr &&& 3 = 0)
    (hop : op &&& futexCmdMask = 1 ∨ op &&& futexCmdMask = 10)
    (hr : sysFutex fuel p uaddr op val s = .ok s') :
    (∃ own, Isolated vm s s' p uaddr val.toInt.toNat own) ↔
      ∀ q, AmongOldest s uaddr val.toInt.toNat q → vm q = vm p := by
  obtain ⟨Q, hinv⟩ := h.inv
  obtain ⟨waiters, hw, -⟩ := (sysFutex_wake hinv haddr hop).2 fuel s' hr
  set n := val.toInt.toNat
  simp only [hw.amongOldest_iff]
  constructor
  · rintro ⟨own, hown⟩ q hq
    have hmem := hown.mem_take ((hw.asleep q).mp (mem_of_mem_take hq)).1 (hw.woken q hq)
    exact ((hown.asleep q).mp (mem_of_mem_take hmem)).2
  · intro hall
    have htake : (waiters.filter (fun q => vm q = vm p)).take n = waiters.take n :=
      filter_take_of_forall (fun q hq => by simpa using hall q hq)
    have hlen : min n (waiters.filter (fun q => vm q = vm p)).length = min n waiters.length := by
      rw [← length_take, ← length_take, htake]
    refine ⟨waiters.filter (fun q => vm q = vm p), ?_, hw.order.sublist filter_sublist, ?_, ?_, ?_⟩
    · intro q
      rw [mem_filter, hw.asleep, decide_eq_true_eq]
    · rw [hlen]
      exact hw.ret
    · rw [htake]
      exact hw.woken
    · rw [htake]
      exact hw.others

/-- Thread 3 wakes thread 1. Thread 2 of another address space went to sleep later. -/
theorem futex_isolated_shared : ∃ s s' : State, AsleepOn s 4096 1 ∧ AsleepOn s 4096 2 ∧
    sysFutex 2 3 4096 1 1 s = .ok s' ∧ ∃ own, Isolated (· % 2) s s' 3 4096 1 own := by
  obtain ⟨s, s', hrun, hone, htwo, hlt, hr, honly⟩ : ∃ s s', Run (· % 2) s ∧ AsleepOn s 4096 1 ∧
      AsleepOn s 4096 2 ∧ s.since 1 < s.since 2 ∧ sysFutex 2 3 4096 1 1 s = .ok s' ∧
      ∀ q v, s.point q = .asleep 4096 v → q = 1 ∨ q = 2 := by
    have h1 : Run (· % 2) (oneAsleep fun _ _ => some 0) := oneAsleep_run rfl
    refine ⟨_, _, (((h1.step (.yield _ rfl)).step (.call 0 2 4096 0 0 0 rfl rfl)).step
      (.wait 2 4096 0 rfl rfl)).step (.spawn 3 3 none rfl), ⟨rfl, 0, rfl⟩, ⟨rfl, 0, rfl⟩,
      by decide, rfl, fun q v hq => ?_⟩
    by_contra hne
    rw [not_or] at hne
    by_cases hthree : q = 3
    · subst hthree
      cases hq
    · simp [goto, waitSection, enterQueue, update_of_ne, hthree, hne, oneAsleep, oneWaits,
        initial] at hq
  refine ⟨s, s', hone, htwo, hr, (futex_isolated_iff hrun (by decide) (by decide) hr).mpr ?_⟩
  rintro q ⟨⟨-, v, hq⟩, hcard⟩
  rcases honly q v hq with rfl | rfl
  · rfl
  · have hfinite : {a | AsleepOn s 4096 a ∧ s.since a < s.since 2}.Finite :=
      ({1, 2} : Set ℕ).toFinite.subset fun a ⟨⟨_, v, ha⟩, _⟩ => honly a v ha
    exact absurd ((Set.ncard_pos hfinite).mpr ⟨1, hone, hlt⟩) (Nat.lt_one_iff.mp hcard).not_gt

/-- Thread 2 wakes thread 1 of another address space and gets its count back. -/
theorem futex_wakes_stranger : ∃ s s' : State, Run id s ∧ AsleepOn s 4096 1 ∧
    sysFutex 2 2 4096 1 1 s = .ok s' ∧ s'.sched.states 1 = .runnable ∧ s'.point 2 = .user 1 ∧
      ¬ ∃ own, Isolated id s s' 2 4096 1 own := by
  have hcall : ∃ s', sysFutex 2 2 4096 1 1 (oneAsleep (fun _ _ => some 0)) = .ok s' ∧
      s'.sched.states 1 = .runnable ∧ s'.point 2 = .user 1 := ⟨_, rfl, rfl, rfl⟩
  obtain ⟨s', hr, hwoken, hret⟩ := hcall
  refine ⟨_, s', oneAsleep_run rfl, ⟨rfl, 0, rfl⟩, hr, hwoken, hret, ?_⟩
  rintro ⟨own, hown⟩
  have hmem := hown.mem_take rfl hwoken
  cases ((hown.asleep 1).mp (mem_of_mem_take hmem)).2

end NoobKernel.Futex
