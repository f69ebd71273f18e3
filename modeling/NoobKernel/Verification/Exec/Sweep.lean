import NoobKernel.Model.Exec
import NoobKernel.Verification.PageTable.Account
import NoobKernel.Verification.UserCopy.Correctness

/-! # The release of user memory

`uvm_free_user_pages` visits every page of a table once, and leaves none of them mapped but the
trap pages. -/

namespace NoobKernel.Vm

open Library Library.Radix List

variable {m m' m'' : Memory} {pt t va a perm base level : ℕ} {path : List Index} {R R' : ℕ → Prop}

namespace Space

theorem copyout (h : Space m pt) (va : ℕ) (src : List ℕ) :
    Space (copyout pt va src m).2 pt ∧
      ∀ va', pteOf pt va' (Vm.copyout pt va src m).2 = pteOf pt va' m := by
  obtain ⟨-, hsame⟩ := copyout_untouched h.spaces rfl va src
  exact ⟨h.untouched hsame, fun va' => pteOf_owned (fun a ha => hsame.word pt a rfl ha) va'⟩

theorem clear (h : Space m pt) (hv : IsMapped pt va m)
    (ha : descend pteChild m.word pt (indices va 2) = some a) :
    Life.pageFree (frameOf pt va m) m = .ok (kfree (frameOf pt va m) m) ∧
      Space (setPte (a, px 0 va) 0 (kfree (frameOf pt va m) m)) pt ∧
      Drops [pt] (AtPage va) m (setPte (a, px 0 va) 0 (kfree (frameOf pt va m) m)) ∧
      pteOf pt va (setPte (a, px 0 va) 0 (kfree (frameOf pt va m) m)) = 0 := by
  obtain ⟨hgrown, hzero⟩ := (h.spaces.table pt rfl).setPte 0 ha
  have hown : pt ∈ [pt] := List.mem_cons_self
  have hw : Written (· ∈ [pt]) [pt] va m (setPte (a, px 0 va) 0 m) :=
    .of_grown h.mirrored.spaces hown hgrown fun hv => absurd hv (notMapped_zero hzero)
  have hdrops := h.mirrored.dropped hw (by simpa using hzero) hown hv
  have hcomm : setPte (a, px 0 va) 0 (kfree (frameOf pt va m) m) =
      kfree (frameOf pt va m) (setPte (a, px 0 va) 0 m) := rfl
  rw [hcomm, pteOf_kfree]
  exact ⟨if_pos (h.spaces.frame pt va rfl hv).used, hdrops.mirrored.space hown, hdrops, hzero⟩

theorem mapFresh (h : Space m pt) (hperm : IsPerm perm) (va : ℕ) :
    Space (Exec.mapFresh pt perm va m).2 pt ∧
      Adds [pt] (AtPage va) m (Exec.mapFresh pt perm va m).2 ∧
      ((Exec.mapFresh pt perm va m).1 = -enomem ∨ (Exec.mapFresh pt perm va m).1 = 0 ∧
        ∃ pa, IsPage pa ∧ pteOf pt va (Exec.mapFresh pt perm va m).2 = leafPte pa perm) := by
  have hown : pt ∈ [pt] := List.mem_cons_self
  have henough : Enough [pt] 1 m := Or.inl rfl
  unfold Exec.mapFresh
  rcases h.mirrored.mapFresh hperm va henough with
    ⟨m', hnone, hadds⟩ | ⟨pa, m1, r, m', hsome, hmap, hres⟩
  · rw [hnone]
    exact ⟨hadds.mirrored.space hown, hadds, Or.inl rfl⟩
  rw [sharedMapPage, forEach_one] at hmap
  rw [hsome]
  dsimp only
  rw [hmap]
  rcases hres with ⟨hne, -, hadds⟩ | ⟨rfl, hadds, hframe, hpte, -⟩
  · rw [if_pos hne]
    exact ⟨hadds.mirrored.space hown, hadds, Or.inl rfl⟩
  · rw [if_neg (not_not.mpr rfl)]
    exact ⟨hadds.mirrored.space hown, hadds, Or.inr ⟨rfl, pa, hframe.isPage, hpte pt hown⟩⟩

end Space

/-- The pages of `R` have been visited: the user pages among them are gone. The tables are as they
were, and no user page has come back. -/
structure Swept (pt : ℕ) (R : ℕ → Prop) (m m' : Memory) : Prop where
  descend : ∀ path, path.length ≤ 2 →
    descend pteChild m'.word pt path = descend pteChild m.word pt path
  kept : ∀ va, ¬ IsMapped pt va m → ¬ IsMapped pt va m'
  gone : ∀ va, R va → IsUserPage va → ¬ IsMapped pt va m'

namespace Swept

theorem skip (h : ∀ va, R va → IsUserPage va → ¬ IsMapped pt va m) : Swept pt R m m :=
  ⟨fun _ _ => rfl, fun _ => id, h⟩

theorem mono (h : Swept pt R m m') (hR : ∀ va, R' va → R va) : Swept pt R' m m' :=
  ⟨h.descend, h.kept, fun va hva => h.gone va (hR va hva)⟩

theorem trans (h : Swept pt R m m') (h' : Swept pt R' m' m'') :
    Swept pt (fun va => R va ∨ R' va) m m'' := by
  refine ⟨fun path hlen => (h'.descend path hlen).trans (h.descend path hlen),
    fun va hnot => h'.kept va (h.kept va hnot), ?_⟩
  rintro va (hR | hR') huser
  · exact h'.kept va (h.gone va hR huser)
  · exact h'.gone va hR' huser

end Swept

/-- An action that visits the pages of `R`, which lie below the table `t`. -/
def Sweeps (pt : ℕ) (path : List Index) (t : ℕ) (R : ℕ → Prop) (f : Memory → Outcome Memory) :
    Prop :=
  ∀ m, Space m pt → descend pteChild m.word pt path = some t →
    ∃ m', f m = .ok m' ∧ Space m' pt ∧ Swept pt R m m'

theorem sweeps_foldlM {α : Type} {g : Memory → α → Outcome Memory} {R : α → ℕ → Prop}
    (hlen : path.length ≤ 2) (l : List α) (h : ∀ i ∈ l, Sweeps pt path t (R i) (fun m => g m i)) :
    Sweeps pt path t (fun va => ∃ i ∈ l, R i va) (fun m => l.foldlM g m) := by
  induction l with
  | nil =>
    intro m hm _
    refine ⟨m, rfl, hm, Swept.skip ?_⟩
    rintro va ⟨i, hi, -⟩
    cases hi
  | cons i l ih =>
    intro m hm hpath
    obtain ⟨m1, hrun1, hm1, hs1⟩ := h i mem_cons_self m hm hpath
    have hpath1 := (hs1.descend path hlen).trans hpath
    obtain ⟨m2, hrun2, hm2, hs2⟩ := ih (fun j hj => h j (mem_cons_of_mem i hj)) m1 hm1 hpath1
    refine ⟨m2, ?_, hm2, (hs1.trans hs2).mono fun va hva => by simpa using hva⟩
    dsimp only at hrun1 hrun2 ⊢
    rw [foldlM_cons, hrun1]
    exact hrun2

theorem sweeps_leaf (h : Leads path 0 base) (i : Index) :
    Sweeps pt path t (fun va => indices va 2 = path ∧ px 0 va = i) (fun m =>
      let pte := m.word t i
      if pte &&& pteV = 0 then .ok m
      else if IsLeaf pte then Life.freeLeaf t i (slotVa 0 base i) m
      else .ok m) := by
  intro m hm hpath
  dsimp only
  set v := slotVa 0 base i with hv
  obtain ⟨hpage, hidx, hpx⟩ := (h v i).mp hv
  -- the page of the slot is the only one with its indices
  have honly : ∀ va, indices va 2 = path ∧ px 0 va = i → IsUserPage va → va = v :=
    fun va hva huser => (h va i).mpr ⟨⟨huser.1, huser.2.1⟩, hva⟩
  rw [← hidx] at hpath
  have hpte : pteOf pt v m = m.word t i := by rw [pteOf_some hpath, hpx]
  by_cases hvalid : m.word t i &&& pteV = 0
  · rw [if_pos hvalid]
    refine ⟨m, rfl, hm, Swept.skip fun va hslot huser => ?_⟩
    rw [honly va hslot huser, IsMapped, hpte]
    exact not_not.mpr hvalid
  rw [if_neg hvalid]
  have hmapped : IsMapped pt v m := by rwa [IsMapped, hpte]
  have hleaf : IsLeaf (m.word t i) := hpte ▸ hm.spaces.leaf pt v rfl hmapped
  rw [if_pos hleaf, Life.freeLeaf]
  by_cases htrap : v = trampoline ∨ v = trapframe
  · rw [if_pos htrap]
    refine ⟨m, rfl, hm, Swept.skip fun va hslot huser => ?_⟩
    exact absurd (honly va hslot huser ▸ htrap) huser.2.2
  rw [if_neg htrap, ← hpte]
  obtain ⟨hfree, hhome, hdrops, hzero⟩ := hm.clear (a := t) hmapped hpath
  rw [hpx] at hhome hdrops hzero
  refine ⟨_, ?_, hhome, ?_, fun va hnot hva => ?_, fun va hslot hva => ?_⟩
  · change (Life.pageFree (frameOf pt v m) m >>= _) = _
    rw [hfree, Outcome.ok_bind]
  · have htable := hm.spaces.table pt rfl
    exact htable.separated.write_leaf (indices_length v 2) hpath fun b hb => setPte_word_ne hb
  · rw [IsMapped, hdrops.of_mapped List.mem_cons_self hva] at hva
    exact hnot hva
  · rw [honly va hslot hva]
    exact notMapped_zero hzero

theorem sweeps_level (level : ℕ) : ∀ path t base, path.length + level = 2 → Leads path level base →
    Sweeps pt path t (fun va => indices va 2 = path ++ indices va level)
      (Life.uvmFreeUserPagesLevel level t base) := by
  induction level with
  | zero =>
    intro path t base hlen h m hm hpath
    obtain ⟨m', hrun, hm', hs⟩ := sweeps_foldlM hlen.le (List.finRange 512)
      (fun i _ => sweeps_leaf h i) m hm hpath
    refine ⟨m', hrun, hm', hs.mono fun va hva => ⟨px 0 va, mem_finRange _, ?_, rfl⟩⟩
    rwa [indices, append_nil] at hva
  | succ level ih =>
    intro path t base hlen h m hm hpath
    have hslots : ∀ i ∈ List.finRange 512, Sweeps pt path t
        (fun va => indices va 2 = path ++ i :: indices va level) (fun m =>
          let pte := m.word t i
          if pte &&& pteV = 0 then .ok m
          else if IsLeaf pte then Life.freeLeaf t i (slotVa (level + 1) base i) m
          else Life.uvmFreeUserPagesLevel level (pte2pa pte) (slotVa (level + 1) base i) m) := by
      intro i _ m hm hpath
      dsimp only
      by_cases hvalid : m.word t i &&& pteV = 0
      · rw [if_pos hvalid]
        refine ⟨m, rfl, hm, Swept.skip fun va hva _ => notMapped_zero (pteOf_none ?_)⟩
        rw [hva, descend_append, hpath, Option.bind_some,
          descend_cons_none (pteChild_of_invalid hvalid)]
      · rw [if_neg hvalid,
          if_neg ((hm.spaces.table pt rfl).inner path t i (by omega) hpath hvalid)]
        have hpath' : descend pteChild m.word pt (path ++ [i]) = some (pte2pa (m.word t i)) := by
          rw [descend_snoc hpath, pteChild_of_valid hvalid]
        have hlen' : (path ++ [i]).length + level = 2 := by
          rw [length_append, length_singleton]
          omega
        obtain ⟨m', hrun, hm', hs⟩ := ih _ _ _ hlen' (h i) m hm hpath'
        refine ⟨m', hrun, hm', hs.mono fun va hva => ?_⟩
        rw [hva, append_assoc]
        rfl
    obtain ⟨m', hrun, hm', hs⟩ := sweeps_foldlM (by omega) (List.finRange 512) hslots m hm hpath
    exact ⟨m', hrun, hm', hs.mono fun va hva => ⟨_, mem_finRange _, hva⟩⟩

theorem Space.free (h : Space m pt) :
    ∃ m', Life.uvmFreeUserPages pt m = .ok m' ∧ Space m' pt ∧ NoUserPage pt m' := by
  have hroot := (h.spaces.table pt rfl).root_ne_zero
  obtain ⟨m', hrun, hm', hs⟩ := sweeps_level 2 [] pt 0 rfl leads_root m h rfl
  refine ⟨m', ?_, hm', fun va huser => hs.gone va rfl huser⟩
  rw [Life.uvmFreeUserPages, if_neg hroot]
  exact hrun

end NoobKernel.Vm
