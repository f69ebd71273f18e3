import NoobKernel.Verification.Sched.Queues

/-! # Wakeups

A wakeup takes processes off a wait queue, from its front or by address, and appends
them to the run queue in the same order. -/

namespace NoobKernel.Sched

open Library Function List Outcome

variable {fuel : ℕ} {nr : ℤ} {f : ℕ → Bool} {l : List ℕ} {closed : List WaitQueue}

/-! ## What a wakeup changes -/

/-- The queues after the processes `woken` were moved to the run queue and `kept` stayed. -/
def movedTo (Q : Queue → List ℕ) (wq : WaitQueue) (woken kept : List ℕ) : Queue → List ℕ :=
  update (update Q (some wq) kept) none (Q none ++ woken)

section MovedTo

variable {Q : Queue → List ℕ} {wq : WaitQueue} {woken kept : List ℕ}

@[simp] theorem movedTo_none : movedTo Q wq woken kept none = Q none ++ woken := by
  simp [movedTo]

@[simp] theorem movedTo_self : movedTo Q wq woken kept (some wq) = kept := by
  simp [movedTo]

theorem movedTo_other {v : WaitQueue} (h : v ≠ wq) :
    movedTo Q wq woken kept (some v) = Q (some v) := by
  simp [movedTo, h]

theorem movedTo_nil : movedTo Q wq [] (Q (some wq)) = Q := by
  simp [movedTo]

theorem movedTo_movedTo (p : ℕ) (kept' : List ℕ) :
    movedTo (movedTo Q wq [p] kept') wq woken kept = movedTo Q wq (p :: woken) kept := by
  funext q
  cases q with
  | none => simp
  | some v =>
    by_cases hv : v = wq
    · subst hv
      simp
    · rw [movedTo_other hv, movedTo_other hv, movedTo_other hv]

end MovedTo

/-- What the members of a family know of each other. -/
def kin (pr : Proc) : ℤ × Option ℕ × List ℕ := (pr.pid, pr.parent, pr.children)

theorem kin_update {s s' : State} {p : ℕ} {pr : Proc} (hproc : s'.proc = update s.proc p pr)
    (hkin : kin pr = kin (s.proc p)) (a : ℕ) : kin (s'.proc a) = kin (s.proc a) := by
  rw [hproc]
  by_cases hap : a = p
  · subst hap
    simp [hkin]
  · simp [hap]

/-- Some sleeping processes have become runnable. -/
structure Woke (s s' : State) : Prop where
  cur : s'.cur = s.cur
  other : ∀ p, s.states p ≠ .sleeping → s'.states p = s.states p
  sleeper : ∀ p, s.states p = .sleeping → s'.states p = .sleeping ∨ s'.states p = .runnable
  same : ∀ p, kin (s'.proc p) = kin (s.proc p)

namespace Woke

variable {s s' s'' : State}

theorem of_states (hcur : s'.cur = s.cur) (hstates : s'.states = s.states)
    (hsame : ∀ p, kin (s'.proc p) = kin (s.proc p)) : Woke s s' := by
  refine ⟨hcur, fun p _ => congrFun hstates p, fun p hp => Or.inl ?_, hsame⟩
  rw [hstates, hp]

theorem refl (s : State) : Woke s s := of_states rfl rfl (fun _ => rfl)

theorem trans (h : Woke s s') (h' : Woke s' s'') : Woke s s'' := by
  refine ⟨h'.cur.trans h.cur, ?_, ?_, fun p => (h'.same p).trans (h.same p)⟩
  · intro p hp
    have hsame := h.other p hp
    rw [h'.other p (by rw [hsame]; exact hp), hsame]
  · intro p hp
    rcases h.sleeper p hp with hs | hr
    · exact h'.sleeper p hs
    · refine Or.inr ?_
      rw [h'.other p (by rw [hr]; decide), hr]

theorem states_eq {p : ℕ} (h : Woke s s') (hp : s'.states p ≠ .runnable) :
    s'.states p = s.states p := by
  by_cases hsleep : s.states p = .sleeping
  · rcases h.sleeper p hsleep with hs | hr
    · rw [hs, hsleep]
    · exact absurd hr hp
  · exact h.other p hsleep

theorem running_iff (h : Woke s s') (p : ℕ) : s'.states p = .running ↔ s.states p = .running := by
  by_cases hp : s.states p = .sleeping
  · rcases h.sleeper p hp with hs | hr
    · simp [hs, hp]
    · simp [hr, hp]
  · rw [h.other p hp]

theorem oneRuns (h : Woke s s') (hs : OneRuns s) : OneRuns s' := by
  intro p hp
  rw [h.cur]
  exact hs p ((h.running_iff p).mp hp)

theorem one {p : ℕ} (hp : s.states p = .sleeping) (hcur : s'.cur = s.cur)
    (hstates : s'.states = update s.states p .runnable)
    (hsame : ∀ a, kin (s'.proc a) = kin (s.proc a)) : Woke s s' := by
  refine ⟨hcur, ?_, ?_, hsame⟩
  · intro a ha
    have hap : a ≠ p := by
      rintro rfl
      exact ha hp
    rw [hstates, update_of_ne hap]
  · intro a ha
    rw [hstates]
    by_cases hap : a = p
    · subst hap
      simp
    · simp [hap, ha]

theorem note (h : Woke s s') (b : Bool) : Woke s { s' with needResched := b } :=
  ⟨h.cur, h.other, h.sleeper, h.same⟩

end Woke

variable {s s' : State} {Q Q' : Queue → List ℕ} {p : ℕ} {wq : WaitQueue}

/-- A process moves from a wait queue to the run queue. Its other fields may change. -/
theorem InQueues.wake {xs ys : List ℕ} (h : InQueues s Q) (hq : Q (some wq) = xs ++ p :: ys)
    (hlinks : s'.links = (s.links.del (.proc p)).addTail (.proc p) .runq)
    (hstates : s'.states = update s.states p .runnable) :
    InQueues s' (movedTo Q wq [p] (xs ++ ys)) := by
  have hrem := h.remove hq unlinked_unused
  have happ := hrem.append (p := p) (by simpa using unlinked_unused) none
  rw [InQueues, hlinks, hstates]
  simpa [movedTo, Queue.state, head] using happ

/-! ## Waking from the front -/

/-- The result of a wakeup from the front of a queue. -/
structure WokeFront (s : State) (Q : Queue → List ℕ) (wq : WaitQueue) (s' : State)
    (woken kept : List ℕ) : Prop where
  split : Q (some wq) = woken ++ kept
  first : Q (some wq) ≠ [] → woken ≠ []
  queues : InQueues s' (movedTo Q wq woken kept)
  woke : Woke s s'

theorem wakeupLoop_spec (wq : WaitQueue) (nr : ℤ) (fuel : ℕ) : ∀ count s Q, InQueues s Q →
    Finishes ((Q (some wq)).length < fuel) (wakeupLoop wq nr fuel count s) fun r =>
      ∃ woken kept, r.1 = count + woken.length ∧ WokeFront s Q wq r.2 woken kept := by
  induction fuel with
  | zero => exact fun _ _ _ _ => .fuel (Nat.not_lt_zero _)
  | succ fuel ih =>
    intro count s Q h
    unfold wakeupLoop
    cases hq : Q (some wq) with
    | nil =>
      have hempty : s.links.isEmpty (.wait wq) = true := (h.isEmpty_iff (some wq)).mpr hq
      rw [if_pos hempty]
      refine .ok ⟨[], Q (some wq), rfl, rfl, fun hne => absurd hq hne, ?_, Woke.refl s⟩
      rw [movedTo_nil]
      exact h
    | cons p ps =>
      have hempty : ¬ s.links.isEmpty (.wait wq) = true := by
        rw [show Node.wait wq = head (some wq) from rfl, h.isEmpty_iff (some wq), hq]
        simp
      have hnext : s.links.next (.wait wq) = .proc p := h.next_head hq
      rw [if_neg hempty]
      simp only [hnext, listEntry, ok_bind]
      set s1 := makeRunnable p (setLinks (·.del (.proc p)) s)
      have hp : s.states p = .sleeping := h.state_eq (q := some wq) (by simp [hq])
      have hstates : s1.states = update s.states p .runnable := states_setState _ _ _
      have hsplit : Q (some wq) = [] ++ p :: ps := hq
      have h1 : InQueues s1 (movedTo Q wq [p] ps) := h.wake hsplit rfl hstates
      have hwoke : Woke s s1 := Woke.one hp rfl hstates (kin_update rfl rfl)
      by_cases hstop : nr > 0 ∧ (count + 1 : ℤ) ≥ nr
      · rw [if_pos hstop]
        exact .ok ⟨[p], ps, rfl, hq, fun _ => by simp, h1, hwoke⟩
      rw [if_neg hstop]
      refine (ih (count + 1) s1 _ h1).mono ?_ ?_
      · rw [movedTo_self]
        exact Nat.lt_of_succ_lt_succ
      · rintro r ⟨woken, kept, hcount, hfront⟩
        have hsplit := hfront.split
        rw [movedTo_self] at hsplit
        refine ⟨p :: woken, kept, ?_, ?_, fun _ => by simp, ?_, hwoke.trans hfront.woke⟩
        · rw [hcount, length_cons]
          omega
        · rw [hq, hsplit, cons_append]
        · rw [← movedTo_movedTo p ps]
          exact hfront.queues

theorem noteWakeup_eq (r : ℕ × State) :
    ∃ b, noteWakeup r = (r.1, { r.2 with needResched := b }) := by
  unfold noteWakeup
  split
  · exact ⟨true, rfl⟩
  · exact ⟨r.2.needResched, rfl⟩

/-- A wakeup returns, and moves processes from the front. -/
theorem waitQueueWakeup_spec (h : InQueues s Q) :
    Finishes ((Q (some wq)).length < fuel) (waitQueueWakeup fuel wq nr s) fun r =>
      ∃ woken kept, r.1 = woken.length ∧ WokeFront s Q wq r.2 woken kept := by
  refine (wakeupLoop_spec wq nr fuel 0 s Q h).map ?_
  rintro r ⟨woken, kept, hcount, hfront⟩
  obtain ⟨b, hb⟩ := noteWakeup_eq r
  rw [hb]
  exact ⟨woken, kept, by simpa using hcount, hfront.split, hfront.first, hfront.queues,
    hfront.woke.note b⟩

/-! ## Waking by address -/

/-- The first `m` processes of a list that satisfy `f`, and the others. -/
def pick (f : ℕ → Bool) : ℕ → List ℕ → List ℕ × List ℕ
  | 0, l => ([], l)
  | _ + 1, [] => ([], [])
  | m + 1, p :: l =>
    if f p then (p :: (pick f m l).1, (pick f m l).2)
    else ((pick f (m + 1) l).1, p :: (pick f (m + 1) l).2)

theorem pick_nil (f : ℕ → Bool) (m : ℕ) : pick f m [] = ([], []) := by
  cases m <;> rfl

theorem pick_zero (f : ℕ → Bool) (l : List ℕ) : pick f 0 l = ([], l) := by
  cases l <;> rfl

theorem pick_congr {g : ℕ → Bool} {m : ℕ} (h : ∀ p ∈ l, f p = g p) : pick f m l = pick g m l := by
  induction l generalizing m with
  | nil => rw [pick_nil, pick_nil]
  | cons p l ih =>
    have hl : ∀ m, pick f m l = pick g m l := fun m => ih (fun a ha => h a (by simp [ha]))
    cases m with
    | zero => rfl
    | succ m => simp only [pick, h p (by simp), hl]

theorem pick_fst (f : ℕ → Bool) (l : List ℕ) : ∀ m, (pick f m l).1 = (l.filter f).take m := by
  induction l with
  | nil => simp [pick_nil]
  | cons p l ih =>
    intro m
    cases m with
    | zero => simp [pick]
    | succ m =>
      by_cases hp : f p = true <;> simp [pick, hp, ih]

theorem mem_pick {m a : ℕ} : a ∈ l ↔ a ∈ (pick f m l).1 ∨ a ∈ (pick f m l).2 := by
  induction l generalizing m with
  | nil => simp [pick_nil]
  | cons p l ih =>
    cases m with
    | zero => simp [pick]
    | succ m =>
      by_cases hp : f p = true
      · simp only [pick, hp, if_true, mem_cons, or_assoc, ih (m := m)]
      · simp only [pick, hp, Bool.false_eq_true, if_false, mem_cons, ih (m := m + 1)]
        tauto

theorem pick_snd (hl : l.Nodup) : ∀ m, (pick f m l).2 = l.filter (fun p => p ∉ (pick f m l).1) := by
  induction l with
  | nil => simp [pick_nil]
  | cons p l ih =>
    intro m
    obtain ⟨hp, hnodup⟩ := nodup_cons.mp hl
    cases m with
    | zero => simp [pick]
    | succ m =>
      by_cases hf : f p = true
      · simp only [pick, hf, if_true, mem_cons, true_or, not_true_eq_false, decide_false,
          Bool.false_eq_true, not_false_eq_true, filter_cons_of_neg]
        rw [ih hnodup m]
        apply filter_congr
        intro a ha
        have hap : a ≠ p := fun he => hp (he ▸ ha)
        simp [hap]
      · have hnot : p ∉ (pick f (m + 1) l).1 := fun hmem => hp (mem_pick.mpr (Or.inl hmem))
        simp only [pick, hf, Bool.false_eq_true, if_false, hnot, not_false_eq_true,
          decide_true, filter_cons_of_pos]
        rw [← ih hnodup (m + 1)]

def waitsFor (s : State) (uaddr p : ℕ) : Bool := (s.proc p).futexUaddr = uaddr

/-- The first node of the rest of a queue. -/
def firstNode (wq : WaitQueue) : List ℕ → Node
  | [] => .wait wq
  | p :: _ => .proc p

theorem InQueues.next_firstNode {seen rest : List ℕ} (h : InQueues s Q)
    (hq : Q (some wq) = seen ++ rest) (hrest : rest ≠ []) :
    s.links.next (firstNode wq rest) = firstNode wq rest.tail := by
  obtain ⟨p, rest, rfl⟩ := exists_cons_of_ne_nil hrest
  have hring := h.ring (some wq)
  rw [hq, map_append, map_cons] at hring
  have hafter : ∃ back, rest.map Node.proc ++ [head (some wq)] = firstNode wq rest :: back := by
    cases rest with
    | nil => exact ⟨[], rfl⟩
    | cons r rest => exact ⟨rest.map Node.proc ++ [.wait wq], rfl⟩
  obtain ⟨back, hback⟩ := hafter
  exact hring.next_eq hback

/-- The queue `seen` and more has lost the processes `x.1`, and `x.2` has stayed behind `seen`. -/
structure WokeAddr (s : State) (Q : Queue → List ℕ) (wq : WaitQueue) (seen : List ℕ)
    (x : List ℕ × List ℕ) (s' : State) : Prop where
  queues : InQueues s' (movedTo Q wq x.1 (seen ++ x.2))
  woke : Woke s s'
  kept : ∀ p, p ∉ x.1 → s'.proc p = s.proc p

namespace WokeAddr

variable {s'' : State} {seen rest : List ℕ} {x : List ℕ × List ℕ}

theorem refl (h : InQueues s Q) (hq : Q (some wq) = seen ++ rest) :
    WokeAddr s Q wq seen ([], rest) s := by
  refine ⟨?_, Woke.refl s, fun _ _ => rfl⟩
  rw [← hq, movedTo_nil]
  exact h

theorem cons (h : WokeAddr s Q wq seen ([p], rest) s')
    (h' : WokeAddr s' (movedTo Q wq [p] (seen ++ rest)) wq seen x s'') :
    WokeAddr s Q wq seen (p :: x.1, x.2) s'' where
  queues := by
    rw [← movedTo_movedTo p]
    exact h'.queues
  woke := h.woke.trans h'.woke
  kept a ha := by
    rw [mem_cons, not_or] at ha
    rw [h'.kept a ha.2, h.kept a (by simpa using ha.1)]

theorem skip (h : WokeAddr s Q wq (seen ++ [p]) x s') : WokeAddr s Q wq seen (x.1, p :: x.2) s' :=
  ⟨by simpa using h.queues, h.woke, h.kept⟩

end WokeAddr

theorem wakeupAddrLoop_spec (wq : WaitQueue) (uaddr : ℕ) (nr : ℤ) (fuel : ℕ) :
    ∀ (n : Node) (count m : ℕ) (s : State) (Q : Queue → List ℕ) (seen rest : List ℕ),
    InQueues s Q → Q (some wq) = seen ++ rest → (rest ≠ [] → n = firstNode wq rest.tail) →
    (count + (m + 1) : ℤ) = nr →
    Finishes (rest.length < fuel) (wakeupAddrLoop wq uaddr nr fuel (firstNode wq rest) n count s)
      fun r => r.1 = count + (pick (waitsFor s uaddr) (m + 1) rest).1.length ∧
        WokeAddr s Q wq seen (pick (waitsFor s uaddr) (m + 1) rest) r.2 := by
  induction fuel with
  | zero => exact fun _ _ _ _ _ _ _ _ _ _ _ => .fuel (Nat.not_lt_zero _)
  | succ fuel ih =>
    intro n count m s Q seen rest h hq hn hm
    unfold wakeupAddrLoop
    cases rest with
    | nil =>
      rw [if_pos (show firstNode wq [] = .wait wq from rfl), pick_nil]
      exact .ok ⟨rfl, .refl h hq⟩
    | cons p rest =>
      obtain rfl := hn (by simp)
      simp only [firstNode, listEntry, ok_bind]
      by_cases hmatch : (s.proc p).futexUaddr = uaddr
      · have hw : waitsFor s uaddr p = true := by simp [waitsFor, hmatch]
        have hp : s.states p = .sleeping := h.state_eq (q := some wq) (by simp [hq])
        rw [if_neg (not_not.mpr hmatch)]
        simp only [pick, hw, if_true]
        set s1 := enqueueProc p (setProc p
          (fun pr => { pr with state := .runnable, futexUaddr := 0 })
          (setLinks (·.del (.proc p)) s)) with hs1
        have hstates : s1.states = update s.states p .runnable := by
          rw [hs1, enqueueProc, states_setLinks, states_setProc rfl, states_setLinks]
        have hproc : ∀ a, a ≠ p → s1.proc a = s.proc a := fun a ha => update_of_ne ha _ _
        have hone : WokeAddr s Q wq seen ([p], rest) s1 :=
          ⟨h.wake hq rfl hstates, Woke.one hp rfl hstates (kin_update rfl rfl),
            fun a ha => hproc a (by simpa using ha)⟩
        by_cases hstop : (count + 1 : ℤ) ≥ nr
        · obtain rfl : m = 0 := by omega
          rw [if_pos hstop, pick_zero]
          exact .ok ⟨rfl, hone⟩
        rw [if_neg hstop]
        obtain ⟨m, rfl⟩ := Nat.exists_eq_add_one_of_ne_zero (show m ≠ 0 by omega)
        have hnodup := h.nodup (some wq)
        rw [hq] at hnodup
        have hnot : p ∉ rest := (nodup_cons.mp ((nodup_append.mp hnodup).2.1)).1
        have hsame :
          pick (waitsFor s1 uaddr) (m + 1) rest = pick (waitsFor s uaddr) (m + 1) rest := by
          apply pick_congr
          intro a ha
          rw [waitsFor, hproc a (fun he => hnot (he ▸ ha)), waitsFor]
        have hrest := ih _ (count + 1) m s1 _ seen rest hone.queues movedTo_self
          (hone.queues.next_firstNode movedTo_self) (by push_cast at hm ⊢; omega)
        rw [hsame] at hrest
        refine hrest.mono Nat.lt_of_succ_lt_succ ?_
        rintro r ⟨hcount, hrest⟩
        refine ⟨?_, hone.cons hrest⟩
        rw [hcount, length_cons]
        omega
      · have hw : waitsFor s uaddr p = false := by simp [waitsFor, hmatch]
        rw [if_pos hmatch]
        simp only [pick, hw, Bool.false_eq_true, if_false]
        have hsplit : Q (some wq) = (seen ++ [p]) ++ rest := by simp [hq]
        refine (ih _ count m s Q (seen ++ [p]) rest h hsplit (h.next_firstNode hsplit) hm).mono
          Nat.lt_of_succ_lt_succ ?_
        rintro r ⟨hcount, hrest⟩
        exact ⟨hcount, hrest.skip⟩

/-- A wakeup by address returns, and moves the first `nr` processes that wait for it. -/
theorem waitQueueWakeupAddr_spec {uaddr : ℕ} (h : InQueues s Q) :
    Finishes ((Q (some wq)).length < fuel) (waitQueueWakeupAddr fuel wq uaddr nr s) fun r =>
      r.1 = (pick (waitsFor s uaddr) nr.toNat (Q (some wq))).1.length ∧
        WokeAddr s Q wq [] (pick (waitsFor s uaddr) nr.toNat (Q (some wq))) r.2 := by
  unfold waitQueueWakeupAddr
  by_cases hnr : nr ≤ 0
  · rw [if_pos hnr, Int.toNat_of_nonpos hnr, pick_zero]
    exact .ok ⟨rfl, .refl h rfl⟩
  rw [if_neg hnr]
  have hfirst : s.links.next (.wait wq) = firstNode wq (Q (some wq)) := by
    have hring := h.ring (some wq)
    cases hq : Q (some wq) with
    | nil =>
      rw [hq] at hring
      exact hring.next_head rfl
    | cons p ps => exact h.next_head hq
  rw [hfirst]
  obtain ⟨m, hm⟩ := Nat.exists_eq_add_one_of_ne_zero (show nr.toNat ≠ 0 by omega)
  rw [hm]
  refine (wakeupAddrLoop_spec wq uaddr nr fuel _ 0 m s Q [] (Q (some wq)) h rfl
    (h.next_firstNode (nil_append _).symm) (by omega)).map ?_
  rintro r ⟨hcount, haddr⟩
  obtain ⟨b, hb⟩ := noteWakeup_eq r
  rw [hb]
  exact ⟨by simpa using hcount, haddr.queues, haddr.woke.note b, haddr.kept⟩

/-! ## Calls that wake -/

/-- Processes have moved from wait queues to the run queue. -/
structure Moved (s : State) (Q : Queue → List ℕ) (s' : State) (Q' : Queue → List ℕ) : Prop where
  queues : InQueues s' Q'
  woke : Woke s s'
  subset : ∀ wq, Q' (some wq) ⊆ Q (some wq)

namespace Moved

theorem refl (h : InQueues s Q) : Moved s Q s Q := ⟨h, Woke.refl s, fun _ => List.Subset.refl _⟩

theorem trans {s'' : State} {Q'' : Queue → List ℕ} (h : Moved s Q s' Q')
    (h' : Moved s' Q' s'' Q'') : Moved s Q s'' Q'' :=
  ⟨h'.queues, h.woke.trans h'.woke, fun wq _ hp => h.subset wq (h'.subset wq hp)⟩

end Moved

theorem movedTo_subset {woken kept : List ℕ} (h : kept ⊆ Q (some wq)) (v : WaitQueue) :
    movedTo Q wq woken kept (some v) ⊆ Q (some v) := by
  by_cases hv : v = wq
  · subst hv
    rwa [movedTo_self]
  · rw [movedTo_other hv]
    exact List.Subset.refl _

theorem WokeFront.moved {woken kept : List ℕ} (h : WokeFront s Q wq s' woken kept) :
    Moved s Q s' (movedTo Q wq woken kept) := by
  refine ⟨h.queues, h.woke, movedTo_subset ?_⟩
  rw [h.split]
  exact subset_append_right _ _

section

variable (h : InQueues s Q)

include h

theorem InQueues.wakeupOne (hr : waitQueueWakeupOne fuel wq s = .ok s') :
    ∃ woken kept, WokeFront s Q wq s' woken kept := by
  obtain ⟨r, hwake, hret⟩ := bind_eq_ok.mp hr
  cases hret
  obtain ⟨woken, kept, -, hfront⟩ := (waitQueueWakeup_spec h).2 r hwake
  exact ⟨woken, kept, hfront⟩

theorem InQueues.wakeupAll (hr : waitQueueWakeupAll fuel wq s = .ok s') :
    ∃ Q', Moved s Q s' Q' := by
  obtain ⟨r, hwake, hret⟩ := bind_eq_ok.mp hr
  cases hret
  obtain ⟨woken, kept, -, hfront⟩ := (waitQueueWakeup_spec h).2 r hwake
  exact ⟨_, hfront.moved⟩

theorem InQueues.wakeupAddr {uaddr : ℕ} {r : ℕ × State}
    (hr : waitQueueWakeupAddr fuel wq uaddr nr s = .ok r) : ∃ Q', Moved s Q r.2 Q' := by
  obtain ⟨-, haddr⟩ := (waitQueueWakeupAddr_spec h).2 r hr
  refine ⟨_, haddr.queues, haddr.woke, movedTo_subset ?_⟩
  intro p hp
  exact mem_pick.mpr (Or.inr (by simpa using hp))

theorem InQueues.wakeJoiners (hr : wakeJoiners fuel p s = .ok s') : ∃ Q', Moved s Q s' Q' := by
  unfold Sched.wakeJoiners at hr
  split at hr
  · obtain ⟨r, hwake, hret⟩ := bind_eq_ok.mp hr
    cases hret
    exact h.wakeupAddr hwake
  · cases hr
    exact ⟨Q, Moved.refl h⟩

theorem InQueues.fdTableFree (hr : fdTableFree fuel closed s = .ok s') : ∃ Q', Moved s Q s' Q' := by
  induction closed generalizing s Q with
  | nil =>
    cases hr
    exact ⟨Q, Moved.refl h⟩
  | cons wq closed ih =>
    obtain ⟨s1, hwake, hrest⟩ := bind_eq_ok.mp hr
    obtain ⟨Q1, h1⟩ := h.wakeupAll hwake
    obtain ⟨Q', h'⟩ := ih h1.queues hrest
    exact ⟨Q', h1.trans h'⟩

theorem InQueues.closeAll (hr : closeAll fuel closed p s = .ok s') : ∃ Q', Moved s Q s' Q' := by
  unfold Sched.closeAll at hr
  split at hr
  · obtain ⟨s1, hfree, hret⟩ := bind_eq_ok.mp hr
    cases hret
    obtain ⟨Q1, h1⟩ := h.fdTableFree hfree
    have hstates : (setProc p (fun pr => { pr with fdTable := false }) s1).states = s1.states :=
      states_setProc_same rfl
    refine ⟨Q1, h1.trans ⟨?_, Woke.of_states rfl hstates (kin_update rfl rfl), fun _ =>
      List.Subset.refl _⟩⟩
    rw [InQueues, hstates]
    exact h1.queues
  · cases hr
    exact ⟨Q, Moved.refl h⟩

theorem InQueues.wakeParent (hr : wakeParent fuel p s = .ok s') : ∃ Q', Moved s Q s' Q' := by
  unfold Sched.wakeParent at hr
  split at hr
  · cases hr
    exact ⟨Q, Moved.refl h⟩
  · obtain ⟨woken, kept, hfront⟩ := h.wakeupOne hr
    exact ⟨_, hfront.moved⟩

end

/-! ## Queue membership over whole runs -/

variable {t : ℕ} {f : Proc → Proc}

/-! ## Inside a call -/

/-- A state inside a call: no process other than the current one runs. -/
structure Mid (s : State) : Prop where
  queues : ∃ Q, InQueues s Q
  running : OneRuns s

theorem Inv.mid (h : Inv s Q) : Mid s := ⟨⟨Q, h.queues⟩, fun p hp => (h.running p).mp hp⟩

theorem Mid.inv (h : Mid s) (hcur : s.cur = some p) (hp : s.states p = .running) :
    ∃ Q, Inv s Q := by
  obtain ⟨Q, hq⟩ := h.queues
  refine ⟨Q, hq, fun a => ⟨h.running a, ?_⟩⟩
  intro ha
  rw [hcur, Option.some.injEq] at ha
  rwa [← ha]

theorem Mid.moved (h : Mid s) (hm : ∀ Q, InQueues s Q → ∃ Q', Moved s Q s' Q') :
    Mid s' ∧ Woke s s' := by
  obtain ⟨Q, hq⟩ := h.queues
  obtain ⟨Q', hmoved⟩ := hm Q hq
  exact ⟨⟨⟨Q', hmoved.queues⟩, hmoved.woke.oneRuns h.running⟩, hmoved.woke⟩

theorem Inv.moved (h : Inv s Q) (hm : Moved s Q s' Q') : Inv s' Q' :=
  ⟨hm.queues, fun p => by rw [hm.woke.running_iff, hm.woke.cur, h.running]⟩

theorem Inv.sleepOn (h : Inv s Q) (hcur : s.cur = some p) (wq : WaitQueue) :
    Mid (sleepOn wq p s) := by
  have hrun := (h.running p).mpr hcur
  exact ⟨⟨_, h.queues.sleepOn (hrun ▸ unlinked_running) wq⟩,
    h.mid.running.change rfl (sleepOn_states wq p s) (by decide)⟩

theorem Inv.fields (h : Inv s Q) (hlinks : s'.links = s.links) (hstates : s'.states = s.states)
    (hcur : s'.cur = s.cur) : Inv s' Q := by
  refine ⟨?_, fun p => by rw [hstates, hcur, h.running]⟩
  rw [InQueues, hlinks, hstates]
  exact h.queues

theorem Mid.yield (h : Mid s) (hr : schedYield s = .ok s') : ∃ Q', Inv s' Q' := by
  obtain ⟨Q, hq⟩ := h.queues
  obtain ⟨s1, Q1, hyield, hinv, -⟩ := schedYield_spec hq h.running
  rw [hr] at hyield
  cases hyield
  exact ⟨Q1, hinv⟩

theorem Mid.zombie (h : Mid s) (hp : Unlinked (s.states p)) (hf : (f (s.proc p)).state = .zombie) :
    Mid (setProc p f s) := by
  obtain ⟨Q, hq⟩ := h.queues
  have hstates := states_setProc hf
  refine ⟨⟨Q, ?_⟩, h.running.change rfl hstates (by decide)⟩
  rw [InQueues, hstates]
  exact hq.change hp unlinked_zombie

/-! ## Exit -/

theorem sysExit_inv {status : ℤ} (h : Inv s Q) (hcur : s.cur = some p)
    (hr : sysExit fuel closed p status s = .ok s') : ∃ Q', Inv s' Q' := by
  have hrun : s.states p = .running := (h.running p).mpr hcur
  set s1 := setProc p (fun pr => { pr with exitCode := status, futexUaddr := 0 }) s
  have hstates1 : s1.states = s.states := states_setProc_same rfl
  have h1 : Inv s1 Q := h.fields rfl hstates1 rfl
  obtain ⟨s2, hclose, hr⟩ := bind_eq_ok.mp hr
  obtain ⟨h2, hwoke2⟩ := h1.mid.moved (fun _ hq => hq.closeAll hclose)
  obtain ⟨s3, hjoin, hr⟩ := bind_eq_ok.mp hr
  obtain ⟨h3, hwoke3⟩ := h2.moved (fun _ hq => hq.wakeJoiners hjoin)
  have hrun3 : s3.states p = .running := by
    rw [(hwoke2.trans hwoke3).running_iff p, hstates1]
    exact hrun
  have h4 : Mid (setState p .zombie s3) := h3.zombie (hrun3 ▸ unlinked_running) rfl
  obtain ⟨s5, hparent, hyield⟩ := bind_eq_ok.mp hr
  exact (h4.moved (fun _ hq => hq.wakeParent hparent)).1.yield hyield

/-! ## Kill -/

/-- A node whose links no queue depends on. -/
def OffQueue (s : State) (n : Node) : Prop := ∃ p, n = .proc p ∧ Unlinked (s.states p)

/-- Unlinking a process that is in no queue changes no link of a queue. -/
def Harmless (s : State) (t : ℕ) : Prop :=
  s.links.isEmpty (.proc t) = true ∨
    (OffQueue s (s.links.prev (.proc t)) ∨
      s.links.next (s.links.prev (.proc t)) = s.links.next (.proc t)) ∧
    (OffQueue s (s.links.next (.proc t)) ∨
      s.links.prev (s.links.next (.proc t)) = s.links.prev (.proc t))

/-- A fatal signal for a process in no queue finds its old neighbours as they were. -/
def KillSafe (self : ℕ) (pid sig : ℤ) (s : State) : Prop :=
  0 < pid → sig = 9 ∨ sig = 15 → ∀ t, killTarget self pid s = some t →
    s.states t = .runnable ∨ s.states t = .sleeping ∨ Harmless s t

theorem InQueues.unlink_harmless (h : InQueues s Q) (ht : Unlinked (s.states t))
    (hsafe : Harmless s t) : InQueues (unlinkTarget t s) Q := by
  unfold unlinkTarget
  split
  · rename_i hne
    rcases hsafe with hempty | ⟨hprev, hnext⟩
    · simp [hempty] at hne
    -- The neighbour on either side keeps its link, if it is in a queue.
    have hside : ∀ (f : Node → Node) a v, OffQueue s a ∨ f a = v → ∀ n,
        (∀ p, n = .proc p → ¬ Unlinked (s.states p)) →
          update (update f a v) (.proc t) (.proc t) n = f n := by
      intro f a v hkeep n hn
      rw [update_of_ne (fun he => hn t he ht)]
      by_cases hna : n = a
      · subst hna
        rw [update_self]
        rcases hkeep with ⟨b, hb, hoff⟩ | hsame
        · exact absurd hoff (hn b hb)
        · exact hsame.symm
      · rw [update_of_ne hna]
    exact Queued.relink h (hside _ _ _ hprev) (hside _ _ _ hnext)
  · exact h

theorem InQueues.unlink_linked {q : Queue} {xs ys : List ℕ} (h : InQueues s Q)
    (hsplit : Q q = xs ++ t :: ys) :
    Queued (unlinkTarget t s).links (update s.states t .zombie) (update Q q (xs ++ ys)) := by
  have hne : s.links.isEmpty (.proc t) = false := by
    have hring := h.ring q
    rw [hsplit, map_append, map_cons] at hring
    have hafter : ∃ after back, ys.map Node.proc ++ [head q] = after :: back := by
      cases ys <;> exact ⟨_, _, rfl⟩
    obtain ⟨after, back, hback⟩ := hafter
    have hmem : after ∈ ys.map Node.proc ++ [head q] := by simp [hback]
    have hnot : Node.proc t ∉ ys.map Node.proc ++ [head q] := by
      have hnodup := h.nodup q
      rw [hsplit, nodup_append, nodup_cons] at hnodup
      simp [hnodup.2.1.1, (head_ne_proc q t).symm]
    rw [Links.isEmpty, hring.next_eq hback, decide_eq_false_iff_not]
    rintro rfl
    exact hnot hmem
  have hrem := h.remove hsplit unlinked_zombie
  unfold unlinkTarget
  rw [hne, Bool.not_false, if_pos rfl]
  have hself : ∀ n : Node, (∀ p, n = .proc p →
      ¬ Unlinked (update s.states t .zombie p)) → n ≠ .proc t := by
    rintro n hn rfl
    exact hn t rfl (by simpa using unlinked_zombie)
  refine hrem.relink ?_ ?_ <;> exact fun n hn => update_of_ne (hself n hn) _ _

theorem unlinkTarget_proc (t : ℕ) (s : State) : (unlinkTarget t s).proc = s.proc := by
  unfold unlinkTarget
  split <;> rfl

theorem unlinkTarget_states (t : ℕ) (s : State) : (unlinkTarget t s).states = s.states := by
  unfold State.states
  rw [unlinkTarget_proc]

theorem unlinkTarget_cur (t : ℕ) (s : State) : (unlinkTarget t s).cur = s.cur := by
  unfold unlinkTarget
  split <;> rfl

/-- The target of a fatal signal leaves its queue and becomes a zombie. -/
theorem Inv.kill (h : Inv s Q)
    (hsafe : s.states t = .runnable ∨ s.states t = .sleeping ∨ Harmless s t)
    (hf : (f (s.proc t)).state = .zombie) : Mid (setProc t f (unlinkTarget t s)) := by
  have hstates := unlinkTarget_states t s
  have hf' : (f ((unlinkTarget t s).proc t)).state = .zombie := by rw [unlinkTarget_proc, hf]
  have hrunning : OneRuns (unlinkTarget t s) := by
    intro a ha
    rw [unlinkTarget_cur]
    rw [hstates] at ha
    exact (h.running a).mp ha
  by_cases ht : Unlinked (s.states t)
  · have hharmless : Harmless s t := by
      rcases hsafe with hrun | hsleep | hharmless
      · exact absurd hrun ht.1
      · exact absurd hsleep ht.2
      · exact hharmless
    have hmid : Mid (unlinkTarget t s) := ⟨⟨Q, h.queues.unlink_harmless ht hharmless⟩, hrunning⟩
    exact hmid.zombie (by rwa [hstates]) hf'
  · obtain ⟨q, hq⟩ := h.queues.exists_queue ht
    obtain ⟨xs, ys, hsplit⟩ := append_of_mem hq
    refine ⟨⟨update Q q (xs ++ ys), ?_⟩, hrunning.change rfl (states_setProc hf') (by decide)⟩
    rw [InQueues, states_setProc hf', hstates]
    exact h.queues.unlink_linked hsplit

theorem sysKill_inv {self : ℕ} {pid sig : ℤ} {r : ℤ × State} (h : Inv s Q)
    (hcur : s.cur = some self) (hsafe : KillSafe self pid sig s)
    (hr : sysKill fuel closed self pid sig s = .ok r) : ∃ Q', Inv r.2 Q' := by
  unfold sysKill at hr
  by_cases hsig : sig = 0
  · rw [if_pos hsig] at hr
    cases hr
    exact ⟨Q, h⟩
  rw [if_neg hsig] at hr
  by_cases hpid : pid ≤ 0
  · rw [if_pos hpid] at hr
    cases hr
    exact ⟨Q, h⟩
  rw [if_neg hpid] at hr
  cases htarget : killTarget self pid s with
  | none =>
    rw [htarget] at hr
    cases hr
    exact ⟨Q, h⟩
  | some t =>
    rw [htarget] at hr
    by_cases hfatal : sig = 9 ∨ sig = 15
    · simp only [if_pos hfatal] at hr
      have h1 := h.kill (f := fun pr => { pr with exitCode := -sig, state := .zombie })
        (hsafe (not_le.mp hpid) hfatal t htarget) rfl
      obtain ⟨s2, hclose, hr⟩ := bind_eq_ok.mp hr
      obtain ⟨h2, hwoke2⟩ := h1.moved (fun _ hq => hq.closeAll hclose)
      obtain ⟨s3, hparent, hr⟩ := bind_eq_ok.mp hr
      obtain ⟨h3, hwoke3⟩ := h2.moved (fun _ hq => hq.wakeParent hparent)
      by_cases hself : t = self
      · rw [if_pos hself] at hr
        obtain ⟨s4, hyield, hr⟩ := bind_eq_ok.mp hr
        cases hr
        exact h3.yield hyield
      · rw [if_neg hself] at hr
        cases hr
        have hrun : s.states self = .running := (h.running self).mpr hcur
        have hwoke := hwoke2.trans hwoke3
        refine h3.inv (p := self) ?_ ?_
        · rw [hwoke.cur, setProc_cur, unlinkTarget_cur]
          exact hcur
        · rw [hwoke.running_iff, states_setProc rfl, update_of_ne (Ne.symm hself),
            unlinkTarget_states]
          exact hrun
    · simp only [if_neg hfatal] at hr
      cases hr
      exact ⟨Q, h⟩

/-! ## Creation -/

theorem spawn_inv {pid : ℤ} {parent : Option ℕ} (h : Inv s Q) (hp : s.states p = .unused) :
    Inv (spawn p pid parent s) (update Q none (Q none ++ [p])) := by
  refine ⟨h.queues.spawn hp, fun a => ?_⟩
  rw [spawn_states, spawn_cur, ← h.running a]
  by_cases hap : a = p
  · subst hap
    simp [hp]
  · rw [update_of_ne hap]

/-! ## Runs -/

theorem boot_inv : Inv boot (fun _ => []) := by
  refine ⟨boot_queues, fun p => ?_⟩
  simp [State.states, boot]

theorem Run.inv (h : Run KillSafe s) : ∃ Q, Inv s Q := by
  induction h with
  | boot => exact ⟨_, boot_inv⟩
  | spawn p pid parent _ hp ih =>
    obtain ⟨Q, h⟩ := ih
    exact ⟨_, spawn_inv h hp⟩
  | yield _ hr ih =>
    obtain ⟨Q, h⟩ := ih
    exact h.mid.yield hr
  | sleep wq p _ hcur hr ih =>
    obtain ⟨Q, h⟩ := ih
    exact (h.sleepOn hcur wq).yield hr
  | wakeup fuel wq nr r _ hr ih =>
    obtain ⟨Q, h⟩ := ih
    obtain ⟨woken, kept, -, hfront⟩ := (waitQueueWakeup_spec h.queues).2 r hr
    exact ⟨_, h.moved hfront.moved⟩
  | wakeupAddr fuel wq uaddr nr r _ hr ih =>
    obtain ⟨Q, h⟩ := ih
    obtain ⟨Q', hmoved⟩ := h.queues.wakeupAddr hr
    exact ⟨Q', h.moved hmoved⟩
  | setFutexUaddr p uaddr _ hcur ih | setTidAddress p uaddr _ hcur ih =>
    obtain ⟨Q, h⟩ := ih
    exact ⟨Q, h.fields rfl (states_setProc_same rfl) rfl⟩
  | exit fuel closed p status _ hcur hr ih =>
    obtain ⟨Q, h⟩ := ih
    exact sysExit_inv h hcur hr
  | kill fuel closed self pid sig r _ hcur hsafe hr ih =>
    obtain ⟨Q, h⟩ := ih
    exact sysKill_inv h hcur hsafe hr

/-! ## Membership -/

/-- The queues are circular lists of processes, each in the queue that its state asks for. -/
structure Placed (s : State) (Q : Queue → List ℕ) : Prop where
  wellFormed : ∀ q, Ring s.links (head q) ((Q q).map Node.proc)
  runnable : ∀ p, s.states p = .runnable → (Q none).count p = 1 ∧ ∀ wq, p ∉ Q (some wq)
  sleeping : ∀ p, s.states p = .sleeping →
    p ∉ Q none ∧ ∃ wq, (Q (some wq)).count p = 1 ∧ ∀ v, v ≠ wq → p ∉ Q (some v)
  other : ∀ p, Unlinked (s.states p) → ∀ q, p ∉ Q q

theorem Inv.placed (h : Inv s Q) : Placed s Q := by
  refine ⟨h.queues.ring, ?_, ?_, fun p hp => h.queues.notMem hp⟩
  · intro p hp
    have hmem := (h.queues.runnable p).mp hp
    refine ⟨count_eq_one_of_mem (h.queues.nodup none) hmem, fun wq hwq => ?_⟩
    cases h.queues.queue_unique hmem hwq
  · intro p hp
    obtain ⟨wq, hmem⟩ := (h.queues.sleeping p).mp hp
    refine ⟨fun hrun => ?_, wq, count_eq_one_of_mem (h.queues.nodup _) hmem, ?_⟩
    · cases h.queues.queue_unique hmem hrun
    · intro v hv hmem'
      cases h.queues.queue_unique hmem hmem'
      exact hv rfl

/-- In every run whose signals find the old neighbours of their target in place, the
queues and the states agree, and the walks over the queues return. -/
theorem queue_membership (h : Run KillSafe s) :
    (∃ Q, Placed s Q) ∧ (∃ s', schedYield s = .ok s') ∧
      (∀ wq nr, ∃ fuel r, waitQueueWakeup fuel wq nr s = .ok r) ∧
      ∀ wq uaddr nr, ∃ fuel r, waitQueueWakeupAddr fuel wq uaddr nr s = .ok r := by
  obtain ⟨Q, hinv⟩ := h.inv
  refine ⟨⟨Q, hinv.placed⟩, ?_, ?_, ?_⟩
  · obtain ⟨s', -, hyield, -⟩ := schedYield_spec hinv.queues hinv.mid.running
    exact ⟨s', hyield⟩
  · intro wq nr
    exact ⟨_, (waitQueueWakeup_spec hinv.queues).1 (Nat.lt_succ_self _)⟩
  · intro wq uaddr nr
    exact ⟨_, (waitQueueWakeupAddr_spec hinv.queues).1 (Nat.lt_succ_self _)⟩

/-- Process 1 runs and its child 2 is in the run queue. -/
def parentAndChild : State :=
  spawn 2 2 (some 1) { setState 1 .running (setLinks (·.del (.proc 1)) (spawn 1 1 none boot)) with
    cur := some 1 }

theorem parentAndChild_run (Ok : ℕ → ℤ → ℤ → State → Prop) : Run Ok parentAndChild := by
  have hyield : schedYield (spawn 1 1 none boot) =
      .ok { setState 1 .running (setLinks (·.del (.proc 1)) (spawn 1 1 none boot)) with
        cur := some 1 } := rfl
  exact .spawn 2 2 (some 1) (.yield (.spawn 1 1 none .boot rfl) hyield) rfl

theorem queue_membership_child : ∃ s, sysKill 1 [] 1 2 9 parentAndChild = .ok (0, s) ∧
    s.states 2 = .zombie ∧ ∃ Q, Placed s Q := by
  have hkill : ∃ s, sysKill 1 [] 1 2 9 parentAndChild = .ok (0, s) ∧ s.states 2 = .zombie :=
    ⟨_, rfl, rfl⟩
  obtain ⟨s, hs, hzombie⟩ := hkill
  have hsafe : KillSafe 1 2 9 parentAndChild := by
    intro _ _ t ht
    have htarget : killTarget 1 2 parentAndChild = some 2 := rfl
    rw [htarget, Option.some.injEq] at ht
    exact Or.inl (ht ▸ rfl)
  have hrun : Run KillSafe s := .kill 1 [] 1 2 9 (0, s) (parentAndChild_run KillSafe) rfl hsafe hs
  exact ⟨s, hs, hzombie, (queue_membership hrun).1⟩

/-- A process that kills itself unlinks the run queue from its own old links. The child
stays runnable and is in no queue. -/
theorem queue_membership_lost : ∃ s, Run (fun _ _ _ _ => True) s ∧
    s.states 2 = .runnable ∧ s.links.isEmpty .runq = true ∧ ¬ ∃ Q, Placed s Q := by
  have hkill : ∃ s, sysKill 1 [] 1 1 9 parentAndChild = .ok (0, s) ∧
      s.states 2 = .runnable ∧ s.links.isEmpty .runq = true := ⟨_, rfl, rfl, rfl⟩
  obtain ⟨s, hs, hrunnable, hempty⟩ := hkill
  refine ⟨s, .kill 1 [] 1 1 9 (0, s) (parentAndChild_run _) rfl trivial hs, hrunnable, hempty, ?_⟩
  rintro ⟨Q, hplaced⟩
  have hnil := (hplaced.wellFormed none).isEmpty_iff.mp hempty
  have hcount := (hplaced.runnable 2 hrunnable).1
  rw [map_eq_nil_iff.mp hnil] at hcount
  cases hcount

/-! ## Turns -/

def yields : ℕ → State → Outcome State
  | 0, s => .ok s
  | n + 1, s => do
    let s ← schedYield s
    yields n s

theorem Inv.yields {n : ℕ} (h : Inv s Q) (hn : (Q none)[n]? = some p) :
    ∃ s', yields (n + 1) s = .ok s' ∧ s'.cur = some p := by
  induction n generalizing s Q with
  | zero =>
    obtain ⟨ps, hq⟩ := head?_eq_some_iff.mp (head?_eq_getElem?.trans hn)
    obtain ⟨s', _, hyield, -, -, hfirst⟩ := schedYield_spec h.queues h.mid.running
    exact ⟨s', by rw [Sched.yields, hyield]; rfl, (hfirst p ps hq).1⟩
  | succ n ih =>
    cases hq : Q none with
    | nil => simp [hq] at hn
    | cons q ps =>
      rw [hq, getElem?_cons_succ] at hn
      obtain ⟨s1, Q1, hyield, h1, -, hfirst⟩ := schedYield_spec h.queues h.mid.running
      obtain ⟨qs, hqs⟩ := (hfirst q ps hq).2
      rw [Sched.yields, hyield]
      refine ih h1 ?_
      rw [← hqs, getElem?_append_left (List.getElem?_eq_some_iff.mp hn).1, hn]

/-- Round robin: the process at place `n` of the run queue runs after `n + 1` turns. -/
theorem round_robin (h : Run KillSafe s) : ∃ Q, Placed s Q ∧ ∀ n p, (Q none)[n]? = some p →
    ∃ s', yields (n + 1) s = .ok s' ∧ s'.cur = some p := by
  obtain ⟨Q, hinv⟩ := h.inv
  exact ⟨Q, hinv.placed, fun n p hn => hinv.yields hn⟩

theorem round_robin_child : ∃ n s', yields (n + 1) parentAndChild = .ok s' ∧ s'.cur = some 2 := by
  obtain ⟨Q, hplaced, hturn⟩ := round_robin (parentAndChild_run KillSafe)
  have hmem : 2 ∈ Q none := count_pos_iff.mp (by rw [(hplaced.runnable 2 rfl).1]; decide)
  obtain ⟨n, hn⟩ := mem_iff_getElem?.mp hmem
  exact ⟨n, hturn n 2 hn⟩

end NoobKernel.Sched
