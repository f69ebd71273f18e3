import NoobKernel.Model.Sched

/-! # The queues of the scheduler

A ghost map gives the processes in each queue. The runnable processes are those of the
run queue and the sleeping ones those of the wait queues. -/

namespace NoobKernel.Sched

open Library Function List Outcome State

/-- The run queue, or a wait queue. -/
abbrev Queue := Option WaitQueue

def head : Queue → Node
  | none => .runq
  | some wq => .wait wq

def Queue.state : Queue → ProcState
  | none => .runnable
  | some _ => .sleeping

theorem head_injective : Injective head := by
  intro q r h
  cases q <;> cases r <;> simp_all [head]

theorem head_ne_proc (q : Queue) (p : ℕ) : head q ≠ .proc p := by
  cases q <;> simp [head]

/-- States in which a process is in no queue. -/
def Unlinked (st : ProcState) : Prop := st ≠ .runnable ∧ st ≠ .sleeping

structure Queued (L : Links Node) (st : ℕ → ProcState) (Q : Queue → List ℕ) : Prop where
  rings : Rings L head Set.univ (fun q => (Q q).map Node.proc)
  runnable : ∀ p, st p = .runnable ↔ p ∈ Q none
  sleeping : ∀ p, st p = .sleeping ↔ ∃ wq, p ∈ Q (some wq)

namespace Queued

variable {L L' : Links Node} {st : ℕ → ProcState} {Q : Queue → List ℕ} {q r : Queue} {p : ℕ}
  {x : ProcState} {xs ys : List ℕ}

section

variable (h : Queued L st Q)

include h

theorem ring (q : Queue) : Ring L (head q) ((Q q).map Node.proc) := h.rings.ring q (Set.mem_univ q)

theorem nodup (q : Queue) : (Q q).Nodup := (h.ring q).nodup_tail.of_map _

theorem queue_unique (hq : p ∈ Q q) (hr : p ∈ Q r) : q = r := by
  by_contra hne
  exact h.rings.apart q (Set.mem_univ q) r (Set.mem_univ r) hne (.proc p) (by simp [hq])
    (by simp [hr])

theorem state_eq (hp : p ∈ Q q) : st p = q.state := by
  cases q with
  | none => exact (h.runnable p).mpr hp
  | some wq => exact (h.sleeping p).mpr ⟨wq, hp⟩

theorem notMem (hp : Unlinked (st p)) (q : Queue) : p ∉ Q q := by
  intro hmem
  have hst := h.state_eq hmem
  cases q with
  | none => exact hp.1 hst
  | some wq => exact hp.2 hst

theorem exists_queue (hp : ¬ Unlinked (st p)) : ∃ q, p ∈ Q q := by
  by_cases hrun : st p = .runnable
  · exact ⟨none, (h.runnable p).mp hrun⟩
  have hsleep : st p = .sleeping := by
    by_contra hne
    exact hp ⟨hrun, hne⟩
  obtain ⟨wq, hmem⟩ := (h.sleeping p).mp hsleep
  exact ⟨some wq, hmem⟩

theorem notMem_ring (hp : Unlinked (st p)) (q : Queue) :
    Node.proc p ∉ head q :: (Q q).map Node.proc := by
  rw [mem_cons, not_or]
  refine ⟨(head_ne_proc q p).symm, ?_⟩
  simpa using h.notMem hp q

end

theorem map_update (Q : Queue → List ℕ) (q : Queue) (l : List ℕ) :
    (fun r => (update Q q l r).map Node.proc) =
      update (fun r => (Q r).map Node.proc) q (l.map Node.proc) := by
  funext r
  by_cases h : r = q
  · subst h
    simp
  · simp [h]

section

variable (h : Queued L st Q)

include h

theorem states_update {l : List ℕ} (hother : ∀ a ≠ p, a ∈ l ↔ a ∈ Q q)
    (hothers : ∀ r ≠ q, p ∉ Q r) (hrun : x = .runnable ↔ q = none ∧ p ∈ l)
    (hsleep : x = .sleeping ↔ q ≠ none ∧ p ∈ l) :
    (∀ a, update st p x a = .runnable ↔ a ∈ update Q q l none) ∧
      (∀ a, update st p x a = .sleeping ↔ ∃ wq, a ∈ update Q q l (some wq)) := by
  have hmem : ∀ a r, a ≠ p → (a ∈ update Q q l r ↔ a ∈ Q r) := by
    intro a r ha
    by_cases hr : r = q
    · subst hr
      rw [update_self]
      exact hother a ha
    · rw [update_of_ne hr]
  have hself : ∀ r, p ∈ update Q q l r ↔ r = q ∧ p ∈ l := by
    intro r
    by_cases hr : r = q
    · subst hr
      simp
    · simp [hr, hothers r hr]
  refine ⟨?_, ?_⟩
  · intro a
    by_cases ha : a = p
    · subst ha
      rw [update_self, hself, hrun, eq_comm]
    · rw [update_of_ne ha, hmem a none ha]
      exact h.runnable a
  · intro a
    by_cases ha : a = p
    · subst ha
      simp only [update_self, hself, hsleep]
      constructor
      · intro ⟨hne, hin⟩
        obtain ⟨wq, rfl⟩ := Option.ne_none_iff_exists'.mp hne
        exact ⟨wq, rfl, hin⟩
      · intro ⟨wq, hq, hin⟩
        exact ⟨by rw [← hq]; simp, hin⟩
    · simp only [update_of_ne ha, hmem a _ ha]
      exact h.sleeping a

theorem append (hp : Unlinked (st p)) (q : Queue) :
    Queued (L.addTail (.proc p) (head q)) (update st p q.state) (update Q q (Q q ++ [p])) := by
  have hrings := h.rings.addTail (Set.mem_univ q) (fun r _ => h.notMem_ring hp r)
  have hmap : (Q q).map Node.proc ++ [Node.proc p] = (Q q ++ [p]).map Node.proc := by simp
  rw [hmap, ← map_update] at hrings
  obtain ⟨hrun, hsleep⟩ := h.states_update (p := p) (q := q) (x := q.state) (l := Q q ++ [p])
    (fun a ha => by simp [ha]) (fun r _ => h.notMem hp r)
    (by cases q <;> simp [Queue.state]) (by cases q <;> simp [Queue.state])
  exact ⟨hrings, hrun, hsleep⟩

theorem remove (hq : Q q = xs ++ p :: ys) (hx : Unlinked x) :
    Queued (L.del (.proc p)) (update st p x) (update Q q (xs ++ ys)) := by
  have hl : (Q q).map Node.proc = xs.map Node.proc ++ Node.proc p :: ys.map Node.proc := by
    simp [hq]
  have hrings := h.rings.del (Set.mem_univ q) hl
  rw [← map_append, ← map_update] at hrings
  have hnodup := h.nodup q
  rw [hq] at hnodup
  have hnot : p ∉ xs ++ ys := (nodup_cons.mp (perm_middle.nodup_iff.mp hnodup)).1
  have hmem : p ∈ Q q := by simp [hq]
  obtain ⟨hrun, hsleep⟩ := h.states_update (p := p) (q := q) (x := x) (l := xs ++ ys)
    (fun a ha => by simp [hq, ha]) (fun r hr hpr => hr (h.queue_unique hpr hmem))
    (by simp [hx.1, hnot]) (by simp [hx.2, hnot])
  exact ⟨hrings, hrun, hsleep⟩

theorem change (hp : Unlinked (st p)) (hx : Unlinked x) : Queued L (update st p x) Q := by
  obtain ⟨hrun, hsleep⟩ := h.states_update (p := p) (q := none) (x := x) (l := Q none)
    (fun a _ => Iff.rfl) (fun r _ => h.notMem hp r) (by simp [hx.1, h.notMem hp none])
    (by simp [hx.2])
  exact ⟨h.rings, hrun, hsleep⟩

theorem relink (hnext : ∀ n, (∀ p, n = .proc p → ¬ Unlinked (st p)) → L'.next n = L.next n)
    (hprev : ∀ n, (∀ p, n = .proc p → ¬ Unlinked (st p)) → L'.prev n = L.prev n) :
    Queued L' st Q := by
  refine ⟨⟨?_, h.rings.apart⟩, h.runnable, h.sleeping⟩
  intro q hq
  have hlinked : ∀ n ∈ head q :: (Q q).map Node.proc, ∀ p, n = .proc p → ¬ Unlinked (st p) := by
    rintro n hn p rfl hp
    exact h.notMem_ring hp q hn
  exact (h.rings.ring q hq).congr (fun n hn => hnext n (hlinked n hn))
    (fun n hn => hprev n (hlinked n hn))

theorem isEmpty_iff (q : Queue) : L.isEmpty (head q) = true ↔ Q q = [] := by
  rw [(h.ring q).isEmpty_iff, map_eq_nil_iff]

theorem next_head (hq : Q q = p :: ys) : L.next (head q) = .proc p := by
  have hring := h.ring q
  rw [hq, map_cons] at hring
  exact hring.next_head rfl

end

end Queued

/-! ## States of the scheduler -/

@[simp] theorem states_setState (s : State) (p : ℕ) (x : ProcState) :
    (setState p x s).states = update s.states p x := by
  funext a
  by_cases h : a = p
  · subst h
    simp [states]
  · simp [states, h]

@[simp] theorem states_setLinks (s : State) (g : Links Node → Links Node) :
    (setLinks g s).states = s.states := rfl

theorem states_setProc {s : State} {p : ℕ} {f : Proc → Proc} {x : ProcState}
    (h : (f (s.proc p)).state = x) : (setProc p f s).states = update s.states p x := by
  funext a
  by_cases ha : a = p
  · subst ha
    simp [states, h]
  · simp [states, ha]

theorem states_setProc_same {s : State} {p : ℕ} {f : Proc → Proc}
    (h : (f (s.proc p)).state = (s.proc p).state) : (setProc p f s).states = s.states := by
  rw [states_setProc h]
  exact update_eq_self p s.states

abbrev InQueues (s : State) (Q : Queue → List ℕ) : Prop := Queued s.links s.states Q

/-- A state between two steps: the process that runs is the one that the hart records. -/
structure Inv (s : State) (Q : Queue → List ℕ) : Prop where
  queues : InQueues s Q
  running : ∀ p, s.states p = .running ↔ s.cur = some p

variable {s s' : State} {Q Q' : Queue → List ℕ} {p : ℕ}

theorem InQueues.enqueue (h : InQueues s Q) (hp : Unlinked (s.states p)) :
    InQueues (makeRunnable p s) (update Q none (Q none ++ [p])) := by
  have happ := h.append hp none
  unfold makeRunnable enqueueProc
  rwa [InQueues, states_setLinks, states_setState]

theorem sleepOn_states (wq : WaitQueue) (p : ℕ) (s : State) :
    (sleepOn wq p s).states = update s.states p .sleeping := by
  unfold Sched.sleepOn
  rw [states_setState, states_setLinks]

theorem InQueues.sleepOn (h : InQueues s Q) (hp : Unlinked (s.states p)) (wq : WaitQueue) :
    InQueues (sleepOn wq p s) (update Q (some wq) (Q (some wq) ++ [p])) := by
  have happ := h.append hp (some wq)
  rwa [InQueues, sleepOn_states]

theorem mem_sleepOn {wq v : WaitQueue} {a : ℕ}
    (ha : a ∈ update Q (some wq) (Q (some wq) ++ [p]) (some v)) :
    a ∈ Q (some v) ∨ (a = p ∧ v = wq) := by
  by_cases hv : v = wq
  · subst hv
    rw [update_self, mem_append, mem_singleton] at ha
    exact ha.imp_right (fun he => ⟨he, rfl⟩)
  · rw [update_of_ne (by simpa using hv)] at ha
    exact Or.inl ha

def OneRuns (s : State) : Prop := ∀ p, s.states p = .running → s.cur = some p

theorem OneRuns.change {st : ProcState} (h : OneRuns s) (hcur : s'.cur = s.cur)
    (hstates : s'.states = update s.states p st) (hst : st ≠ .running) : OneRuns s' := by
  intro a ha
  rw [hcur]
  by_cases hap : a = p
  · rw [hstates, hap, update_self] at ha
    exact absurd ha hst
  · rw [hstates, update_of_ne hap] at ha
    exact h a ha

theorem boot_queues : InQueues boot (fun _ => []) := by
  refine ⟨⟨?_, ?_⟩, ?_, ?_⟩
  · intro q _
    exact Ring.of_self rfl rfl
  · intro q _ r _ hne n hq hr
    simp only [map_nil, mem_singleton] at hq hr
    exact hne (head_injective (hq.symm.trans hr))
  · intro p
    simp [states, boot]
  · intro p
    simp [states, boot]

/-! ## Yielding -/

theorem unlinked_running : Unlinked .running := ⟨by decide, by decide⟩

theorem unlinked_zombie : Unlinked .zombie := ⟨by decide, by decide⟩

theorem unlinked_unused : Unlinked .unused := ⟨by decide, by decide⟩

theorem dequeueProc_nil (h : InQueues s Q) (hq : Q none = []) : dequeueProc s = .ok (none, s) := by
  have hempty : s.links.isEmpty .runq = true := (h.isEmpty_iff none).mpr hq
  unfold dequeueProc
  rw [if_pos hempty]

theorem dequeueProc_cons {ps : List ℕ} (h : InQueues s Q) (hq : Q none = p :: ps) :
    dequeueProc s = .ok (some p, setLinks (·.del (.proc p)) s) := by
  have hempty : s.links.isEmpty .runq = false := by
    rw [Bool.eq_false_iff, ne_eq, show Node.runq = head none from rfl, h.isEmpty_iff none, hq]
    simp
  have hnext : s.links.next .runq = .proc p := h.next_head hq
  unfold dequeueProc
  rw [hempty, hnext]
  rfl

theorem contextSwitchYield_spec (old : Option ℕ) (h : InQueues s Q)
    (hnone : ∀ p, s.states p ≠ .running) :
    ∃ s' Q', contextSwitchYield old s = .ok s' ∧ Inv s' Q' ∧ (∀ q, q ≠ none → Q' q = Q q) ∧
      ∀ p ps, Q none = p :: ps → s'.cur = some p ∧ Q' none = ps := by
  have hinv : ∀ {s1 : State} {p : ℕ} {Q1}, InQueues s1 Q1 → s1.states = update s.states p .running →
      s1.cur = some p → Inv s1 Q1 := by
    intro s1 p Q1 hq1 hstates hcur
    refine ⟨hq1, fun a => ?_⟩
    rw [hstates, hcur]
    by_cases ha : a = p
    · subst ha
      simp
    · simp only [update_of_ne ha, Option.some.injEq, hnone a, false_iff]
      exact Ne.symm ha
  unfold contextSwitchYield
  cases hq : Q none with
  | cons p ps =>
    rw [dequeueProc_cons h hq]
    have hsplit : Q none = [] ++ p :: ps := hq
    have hstates : states { setState p .running (setLinks (·.del (.proc p)) s) with
        cur := some p } = update s.states p .running := states_setState _ _ _
    refine ⟨_, update Q none ps, rfl, hinv ?_ hstates rfl, fun q hqn => update_of_ne hqn _ _, ?_⟩
    · rw [InQueues, hstates]
      exact h.remove hsplit unlinked_running
    · rintro _ _ ⟨⟩
      exact ⟨rfl, update_self ..⟩
  | nil =>
    rw [dequeueProc_nil h hq, ok_bind]
    have hidle : Inv { s with cur := none } Q := by
      refine ⟨h, fun a => ?_⟩
      simp only [reduceCtorEq, iff_false]
      exact hnone a
    cases old with
    | none => exact ⟨_, Q, rfl, hidle, fun _ _ => rfl, nofun⟩
    | some p =>
      by_cases hp : (s.proc p).state ≠ .zombie ∧ (s.proc p).state ≠ .sleeping
      · have hun : Unlinked (s.states p) := by
          refine ⟨?_, hp.2⟩
          intro hrun
          have hmem := (h.runnable p).mp hrun
          rw [hq] at hmem
          cases hmem
        have hstates : states { setState p .running s with cur := some p } =
            update s.states p .running := states_setState _ _ _
        refine ⟨{ setState p .running s with cur := some p }, Q, by simp only [if_pos hp],
          hinv ?_ hstates rfl, fun _ _ => rfl, nofun⟩
        rw [InQueues, hstates]
        exact h.change hun unlinked_running
      · exact ⟨{ s with cur := none }, Q, by simp only [if_neg hp], hidle, fun _ _ => rfl,
          nofun⟩

theorem schedYield_spec (h : InQueues s Q) (hcur : OneRuns s) :
    ∃ s' Q', schedYield s = .ok s' ∧ Inv s' Q' ∧ (∀ q, q ≠ none → Q' q = Q q) ∧
      ∀ p ps, Q none = p :: ps → s'.cur = some p ∧ ps <+: Q' none := by
  unfold schedYield
  have hgo : ∀ s1 Q1, InQueues s1 Q1 → (∀ p, s1.states p ≠ .running) →
      (∀ q, q ≠ none → Q1 q = Q q) → Q none <+: Q1 none →
      ∃ s' Q', contextSwitchYield s.cur { s1 with cur := none, needResched := false } = .ok s' ∧
        Inv s' Q' ∧ (∀ q, q ≠ none → Q' q = Q q) ∧
        ∀ p ps, Q none = p :: ps → s'.cur = some p ∧ ps <+: Q' none := by
    rintro s1 Q1 h1 hnone hsame ⟨qs, hqs⟩
    obtain ⟨s', Q', hrun, hinv, hwait, hfirst⟩ := contextSwitchYield_spec
      (s := { s1 with cur := none, needResched := false }) s.cur h1 hnone
    refine ⟨s', Q', hrun, hinv, fun q hq => (hwait q hq).trans (hsame q hq), fun p ps hq => ?_⟩
    rw [hq] at hqs
    exact (hfirst p (ps ++ qs) hqs.symm).imp_right fun he => ⟨qs, he.symm⟩
  cases hold : s.cur with
  | none =>
    rw [hold] at hgo
    refine hgo s Q h (fun p hp => ?_) (fun _ _ => rfl) prefix_rfl
    rw [hcur p hp] at hold
    cases hold
  | some p =>
    rw [hold] at hgo
    by_cases hp : (s.proc p).state = .running
    · simp only [if_pos hp]
      have hst : s.states p = .running := hp
      refine hgo _ _ (h.enqueue (p := p) (hst ▸ unlinked_running)) (fun a ha => ?_)
        (fun q hq => update_of_ne hq _ _) (by simp)
      unfold makeRunnable enqueueProc at ha
      rw [states_setLinks, states_setState] at ha
      by_cases hap : a = p
      · subst hap
        simp at ha
      rw [update_of_ne hap] at ha
      have hother := hcur a ha
      rw [hold, Option.some.injEq] at hother
      exact hap hother.symm
    · simp only [if_neg hp]
      refine hgo s Q h (fun a ha => ?_) (fun _ _ => rfl) prefix_rfl
      have hother := hcur a ha
      rw [hold, Option.some.injEq] at hother
      subst hother
      exact hp ha

theorem setState_proc_eq (a : ℕ) (x : ProcState) (s : State) (p : ℕ) :
    ∃ y, (setState a x s).proc p = { s.proc p with state := y } ∧ (y = s.states p ∨ y = x) := by
  by_cases hpa : p = a
  · subst hpa
    exact ⟨x, by simp, Or.inr rfl⟩
  · exact ⟨s.states p, by simp [hpa, states], Or.inl rfl⟩

theorem contextSwitchYield_proc {old : Option ℕ} (h : contextSwitchYield old s = .ok s') (p : ℕ) :
    ∃ x, s'.proc p = { s.proc p with state := x } ∧ (x = s.states p ∨ x = .running) := by
  obtain ⟨⟨next, s1⟩, hdeq, hrest⟩ := bind_eq_ok.mp h
  have hs1 : s1.proc = s.proc := by
    unfold dequeueProc at hdeq
    split at hdeq
    · cases hdeq
      rfl
    · obtain ⟨a, -, hret⟩ := bind_eq_ok.mp hdeq
      cases hret
      rfl
  have hstates : s1.states p = s.states p := by
    unfold states
    rw [hs1]
  rw [← hs1, ← hstates]
  cases next with
  | some next =>
    cases hrest
    exact setState_proc_eq next .running s1 p
  | none =>
    cases old with
    | none =>
      cases hrest
      exact ⟨_, rfl, Or.inl rfl⟩
    | some a =>
      dsimp only at hrest
      split at hrest
      · cases hrest
        exact setState_proc_eq a .running s1 p
      · cases hrest
        exact ⟨_, rfl, Or.inl rfl⟩

theorem schedYield_proc (h : schedYield s = .ok s') (p : ℕ) :
    ∃ x, s'.proc p = { s.proc p with state := x } ∧
      (x = s.states p ∨ x = .running ∨ x = .runnable) := by
  obtain ⟨x, hx, hstate⟩ := contextSwitchYield_proc h p
  rw [hx]
  cases hcur : s.cur with
  | none =>
    simp only [hcur] at hstate
    exact ⟨x, rfl, hstate.imp_right Or.inl⟩
  | some a =>
    simp only [hcur] at hstate ⊢
    split
    · rename_i hrun
      rw [if_pos hrun] at hstate
      obtain ⟨y, hy, hcase⟩ := setState_proc_eq a .runnable s p
      refine ⟨x, by rw [enqueueProc, setLinks_proc, hy], ?_⟩
      have hyx : x = y ∨ x = .running := by
        unfold states at hstate
        rw [enqueueProc, setLinks_proc, hy] at hstate
        exact hstate
      rcases hyx with rfl | hx
      · exact hcase.imp_right Or.inr
      · exact Or.inr (Or.inl hx)
    · rename_i hrun
      rw [if_neg hrun] at hstate
      exact ⟨x, rfl, hstate.imp_right Or.inl⟩

/-! ## Creation -/

section Spawn

variable (p : ℕ) (pid : ℤ) (parent : Option ℕ) (s : State)

theorem spawn_links : (spawn p pid parent s).links =
    (s.links.init (.proc p)).addTail (.proc p) .runq := by
  cases parent <;> rfl

theorem spawn_cur : (spawn p pid parent s).cur = s.cur := by
  cases parent <;> rfl

theorem spawn_states : (spawn p pid parent s).states = update s.states p .runnable := by
  set s1 := setLinks (·.init (.proc p))
    (setProc p (fun _ => ⟨pid, .runnable, parent, [], 0, 0, 0, true⟩) s) with hs1
  have hstates1 : s1.states = update s.states p .runnable := by
    rw [hs1, states_setLinks, states_setProc rfl]
  rw [← hstates1]
  cases parent with
  | none => rfl
  | some q =>
    have hchild : (setProc q (fun pr => { pr with children := pr.children ++ [p] }) s1).states =
        s1.states := states_setProc_same rfl
    exact hchild

theorem spawn_proc {a : ℕ} (ha : a ≠ p) : (spawn p pid parent s).proc a =
    { s.proc a with children := (s.proc a).children ++ if parent = some a then [p] else [] } := by
  cases parent with
  | none => simp [spawn, enqueueProc, ha]
  | some q =>
    by_cases haq : a = q
    · subst haq
      simp [spawn, enqueueProc, ha]
    · simp [spawn, enqueueProc, ha, haq, Ne.symm haq]

end Spawn

theorem InQueues.spawn {pid : ℤ} {parent : Option ℕ} (h : InQueues s Q)
    (hp : s.states p = .unused) :
    InQueues (spawn p pid parent s) (update Q none (Q none ++ [p])) := by
  have hun : Unlinked (s.states p) := hp ▸ unlinked_unused
  have hinit : Queued (s.links.init (.proc p)) s.states Q := by
    refine h.relink ?_ ?_ <;> exact fun n hn => update_of_ne (fun he => hn p he hun) _ _
  rw [InQueues, spawn_links, spawn_states]
  exact hinit.append hun none

end NoobKernel.Sched
