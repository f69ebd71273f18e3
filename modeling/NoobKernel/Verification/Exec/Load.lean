import NoobKernel.Verification.Exec.Sweep

/-! # Loading a program

Segments, thread-local data and the stack are new pages at addresses that were not mapped. The
segments and the thread-local data lie below the stack. -/

namespace NoobKernel.Exec

open Library Vm List

variable {m m' m'' : Memory} {pt va perm base start stop a : ℕ} {P Q : ℕ → Prop}

/-- The process has got new pages, at addresses in `P` that were not mapped. -/
structure Extends (pt : ℕ) (P : ℕ → Prop) (m m' : Memory) : Prop where
  space : Space m' pt
  same : ∀ va, ¬ P va ∨ IsMapped pt va m → pteOf pt va m' = pteOf pt va m

namespace Extends

theorem refl (h : Space m pt) : Extends pt P m m := ⟨h, fun _ _ => rfl⟩

theorem of_eq (h : Space m pt) (heq : m' = m) : Extends pt P m m' := by
  rw [heq]
  exact refl h

theorem mono (h : Extends pt P m m') (hPQ : ∀ va, P va → Q va) : Extends pt Q m m' :=
  ⟨h.space, fun va hva => h.same va (hva.imp_left fun hq hp => hq (hPQ va hp))⟩

theorem isMapped (h : Extends pt P m m') (hv : IsMapped pt va m) : IsMapped pt va m' := by
  rwa [IsMapped, h.same va (Or.inr hv)]

theorem trans (h : Extends pt P m m') (h' : Extends pt P m' m'') :
    Extends pt P m m'' := by
  refine ⟨h'.space, fun va hva => ?_⟩
  rw [h'.same va (hva.imp_right h.isMapped), h.same va hva]

end Extends

theorem extends_copyout (h : Space m pt) (va : ℕ) (src : List ℕ) :
    Extends pt P m (copyout pt va src m).2 := by
  obtain ⟨hhome, hsame⟩ := h.copyout va src
  exact ⟨hhome, fun va _ => hsame va⟩

/-! ## New pages -/

/-- The result of a loop that maps new pages. -/
structure MapsPages (pt perm : ℕ) (vas : List ℕ) (m : Memory) (r : ℤ × Memory) : Prop where
  extended : Extends pt (InPages vas) m r.2
  result : r.1 = -enomem ∨ r.1 = 0 ∧ ∀ a ∈ vas, ∃ pa, IsPage pa ∧ pteOf pt a r.2 = leafPte pa perm

theorem mapPages_spec (hperm : IsPerm perm) (vas : List ℕ) (h : Space m pt) :
    MapsPages pt perm vas m (forEach (mapFresh pt perm) vas m) := by
  induction vas generalizing m with
  | nil => exact ⟨Extends.refl h, Or.inr ⟨rfl, fun a ha => by cases ha⟩⟩
  | cons a vas ih =>
    obtain ⟨hhome, hadds, hres⟩ := h.mapFresh hperm a
    have hfirst : Extends pt (InPages (a :: vas)) m (mapFresh pt perm a m).2 :=
      ⟨hhome, fun va hva => hadds.same pt mem_cons_self va
        (hva.imp (fun hnot hat => hnot (inPages_cons.mpr (Or.inl hat))) fun hv => ⟨rfl, hv⟩)⟩
    rw [forEach]
    rcases hres with herr | ⟨hzero, pa, hpa, hpte⟩
    · rw [if_pos (by rw [herr]; decide)]
      exact ⟨hfirst, Or.inl herr⟩
    rw [if_neg (not_not.mpr hzero)]
    obtain ⟨hext, hrest⟩ := ih hhome
    refine ⟨hfirst.trans (hext.mono fun va hva => inPages_cons.mpr (Or.inr hva)),
      hrest.imp_right fun hok => ⟨hok.1, fun b hb => ?_⟩⟩
    rcases mem_cons.mp hb with rfl | hb
    · refine ⟨pa, hpa, ?_⟩
      rw [hext.same b (Or.inr ?_), hpte]
      rw [IsMapped, hpte]
      exact (leafPte_frame hpa hperm.lt hperm.access).1
    · exact hok.2 b hb

theorem mem_pagesOf (hstart : pageSize ∣ start) (ha : a ∈ pagesOf start stop) :
    pageSize ∣ a ∧ start ≤ a ∧ a < stop := by
  obtain ⟨i, hi, rfl⟩ := mem_map.mp ha
  norm_num at hi hstart ⊢
  omega

theorem isUserPage_of_lt (hdvd : pageSize ∣ a) (hlt : a < userTop) : IsUserPage a := by
  refine ⟨hdvd, hlt.trans (by decide), ?_⟩
  rintro (rfl | rfl) <;> exact absurd hlt (by decide)

/-! ## Addresses below the stack -/

/-- The pages below the stack. -/
def Low (va : ℕ) : Prop := vpn va < vpn stackBot

theorem low_of_inPages (hstart : pageSize ∣ start) (hstop : stop ≤ stackBot)
    (hva : InPages (pagesOf start stop) va) : Low va := by
  obtain ⟨a, ha, hvpn⟩ := hva
  obtain ⟨hdvd, -, hlt⟩ := mem_pagesOf hstart ha
  rw [Low, hvpn]
  unfold vpn
  norm_num at hdvd hlt hstop ⊢
  omega

theorem pageSize_dvd_alignDown (x : ℕ) : pageSize ∣ alignDown x pageSize := by
  rw [Nat.dvd_iff_mod_eq_zero, alignDown, Nat.and_mod_two_pow]
  have hmask : ((wordSize - 1) ^^^ (pageSize - 1)) % 2 ^ pageShift = 0 := by decide
  rw [hmask, Nat.and_zero]

theorem pageSize_dvd_mod {x : ℕ} (h : pageSize ∣ x) : pageSize ∣ x % wordSize :=
  (Nat.dvd_mod_iff (by norm_num)).mpr h

theorem mapPages_low (h : Space m pt) (hperm : IsPerm perm) (hstart : pageSize ∣ start)
    (hstop : stop ≤ stackBot) :
    Extends pt Low m (forEach (mapFresh pt perm) (pagesOf start stop) m).2 :=
  (mapPages_spec hperm _ h).extended.mono fun _ hva => low_of_inPages hstart hstop hva

/-! ## Segments -/

theorem readSegment_extends (fuel : ℕ) : ∀ remaining dst f m, Space m pt →
    Extends pt P m (readSegment pt fuel remaining dst f m).2.2 := by
  induction fuel with
  | zero => exact fun _ _ _ _ h => Extends.refl h
  | succ fuel ih =>
    intro remaining dst f m h
    unfold readSegment
    split
    · exact Extends.refl h
    split
    next b buf f' _ =>
      have hcopy : Extends pt P m _ := extends_copyout h dst (b :: buf)
      dsimp only
      split
      · exact hcopy
      · exact hcopy.trans (ih _ _ _ _ hcopy.space)
    · exact Extends.refl h

theorem loadSegment_extends (h : Space m pt) (hbase : pageSize ∣ base) (phdr : Phdr)
    (f : OpenFile) : Extends pt Low m (loadSegment pt base phdr f m).2.2 := by
  unfold loadSegment
  dsimp only
  split
  · exact Extends.refl h
  next hcheck =>
    rw [not_or] at hcheck
    have hstart := pageSize_dvd_mod (Nat.dvd_add hbase (pageSize_dvd_alignDown phdr.vaddr))
    have hperm : IsPerm (pteU ||| pteR ||| pteW ||| pteX) := ⟨by decide, by decide⟩
    have hmap := mapPages_low h hperm hstart (not_lt.mp hcheck.1)
    split
    · exact hmap
    split
    · exact hmap
    have hread : Extends pt Low _ _ := readSegment_extends phdr.filesz phdr.filesz
      ((base + phdr.vaddr) % wordSize) (fileLseek phdr.offset f) _ hmap.space
    split <;> exact hmap.trans hread

theorem loadSegments_extends (hbase : pageSize ∣ base) (ehdr : Ehdr) (is : List ℕ) :
    ∀ maxVa f m, Space m pt →
      Extends pt Low m (loadSegments pt base ehdr is maxVa f m).2.2 := by
  induction is with
  | nil => exact fun _ _ _ h => Extends.refl h
  | cons i is ih =>
    intro maxVa f m h
    unfold loadSegments
    split
    · exact ih _ _ _ h
    split
    · exact ih _ _ _ h
    next phdr f' _ _ =>
      have hseg := loadSegment_extends h hbase phdr f'
      split
      next heq =>
        rw [heq] at hseg
        exact hseg
      next heq =>
        rw [heq] at hseg
        exact hseg.trans (ih _ _ _ hseg.space)

theorem loadElf_extends (h : Space m pt) (hbase : pageSize ∣ base) (ehdr : Ehdr)
    (f : OpenFile) : Extends pt Low m (loadElf pt base ehdr f m).2.2 := by
  have hsegs := loadSegments_extends hbase ehdr (range ehdr.phnum) 0 f m h
  unfold loadElf
  split
  next heq =>
    rw [heq] at hsegs
    exact hsegs
  next heq =>
    rw [heq] at hsegs
    split <;> exact hsegs

theorem mapTls_extends (h : Space m pt) (tls : Tls) :
    Extends pt Low m (mapTls pt tls m).2 := by
  unfold mapTls
  split
  · exact Extends.refl h
  dsimp only
  set total := alignUp ((tls.memsz + tlsTcbSize) % wordSize) pageSize
  have hdvd : pageSize ∣ total := pageSize_dvd_alignDown _
  have hlt : total < wordSize := by
    exact Nat.lt_of_le_of_lt Nat.and_le_left (Nat.mod_lt _ (by decide))
  have hup : alignUp total pageSize = total := by
    rw [alignUp, alignDown_two_pow (Nat.mod_lt _ (by decide)) (by decide)]
    norm_num at hdvd hlt ⊢
    omega
  have hstop : (sub64 stackBot total + alignUp total pageSize) % wordSize = stackBot := by
    rw [hup, sub64]
    norm_num at hlt ⊢
    omega
  have hstart : pageSize ∣ sub64 stackBot total := by
    rw [sub64]
    norm_num at hdvd hlt ⊢
    omega
  have hmap : Extends pt Low m (mapZeroedUserPages pt (sub64 stackBot total) total
      (pteR ||| pteW ||| pteU) m).2 := by
    rw [mapZeroedUserPages, hstop]
    exact mapPages_low h ⟨by decide, by decide⟩ hstart le_rfl
  split
  · exact hmap
  cases tls.data with
  | none => exact hmap
  | some data => exact hmap.trans (extends_copyout hmap.space _ _)

/-! ## The pages that new mappings take -/

section Supply

open Library.Radix

variable {m : Memory} {pt va perm n : ℕ}

theorem mapFresh_plenty_iff (h : Space m pt) (hdvd : pageSize ∣ va) (hlt : va < userTop)
    (hnot : ¬ IsMapped pt va m) (perm : ℕ) :
    (mapFresh pt perm va m).1 = 0 ∧ Plenty n (mapFresh pt perm va m).2 ↔
      Plenty (n + 1 + missing va 2 pt m) m := by
  have hcount : n + 1 + missing va 2 pt m = n + missing va 2 pt m + 1 := by omega
  have hva : pageAligned va ∧ (va + pageSize) % wordSize ≤ vmEnd := by
    refine ⟨(pageAligned_iff va).mpr hdvd, ?_⟩
    norm_num at hlt ⊢
    omega
  rw [hcount, Plenty]
  unfold mapFresh
  rcases h.spaces.kzalloc with ⟨m1, hnone, -⟩ | ⟨pa, m1, hsome, halloc⟩
  · simp [hnone]
  have hsame : missing va 2 pt m1 = missing va 2 pt m :=
    missing_same 2 pt fun a ha => halloc.word a ((h.spaces.table pt rfl).pages a ha).2
  have hnot1 : ¬ IsMapped pt va m1 := by rwa [IsMapped, halloc.same pt va rfl]
  have hmap := (halloc.spaces.table pt rfl).mappages_plenty_iff halloc.frame.isPage va perm n
  rw [and_iff_right hva, and_iff_right hnot1, hsame] at hmap
  rw [hsome]
  dsimp only
  rw [Option.isSome_some, eq_self_iff_true, true_and, ← hmap]
  split
  next herr => simp [herr]
  next hzero => simp [not_not.mp hzero]

theorem mapPages_plenty_iff (hperm : IsPerm perm) (vas : List ℕ) (hnodup : vas.Nodup)
    (hvas : ∀ a ∈ vas, pageSize ∣ a ∧ a < userTop ∧ indices a 2 = indices va 2)
    (h : Space m pt) (hnot : ∀ a ∈ vas, ¬ IsMapped pt a m) (hne : vas ≠ []) :
    (forEach (mapFresh pt perm) vas m).1 = 0 ↔ Plenty (vas.length + missing va 2 pt m) m := by
  induction vas generalizing m with
  | nil => exact absurd rfl hne
  | cons a vas ih =>
    obtain ⟨hdvd, hlt, hidx⟩ := hvas a mem_cons_self
    obtain ⟨hhome, hadds, hres⟩ := h.mapFresh hperm a
    have hfirst := mapFresh_plenty_iff (n := vas.length) h hdvd hlt (hnot a mem_cons_self) perm
    rw [length_cons, ← missing_congr 2 hidx pt m, ← hfirst, forEach]
    rcases hres with herr | ⟨hzero, pa, hpa, hpte⟩
    · rw [if_pos (by rw [herr]; decide), herr]
      simp
    rw [if_neg (not_not.mpr hzero), hzero, eq_self_iff_true, true_and]
    -- the tables are there now
    have hdesc : (descend pteChild (mapFresh pt perm a m).2.word pt (indices va 2)).isSome := by
      rw [← hidx]
      by_contra hnone
      rw [Option.not_isSome_iff_eq_none] at hnone
      have hvalid := (leafPte_frame hpa hperm.lt hperm.access).1
      rw [← hpte, pteOf_none hnone] at hvalid
      exact hvalid rfl
    cases vas with
    | nil => simp [forEach, Plenty]
    | cons b vas =>
      rw [ih (nodup_cons.mp hnodup).2 (fun c hc => hvas c (mem_cons_of_mem a hc))
        hhome (fun c hc => ?_) (cons_ne_nil b vas), missing_eq_zero 2 pt hdesc,
        Nat.add_zero]
      have hca : c ≠ a := by
        rintro rfl
        exact (nodup_cons.mp hnodup).1 hc
      obtain ⟨hdvdc, hltc, -⟩ := hvas c (mem_cons_of_mem a hc)
      rw [IsMapped, hadds.outside mem_cons_self fun hat => hca ?_]
      · exact hnot c (mem_cons_of_mem a hc)
      · exact vpn_inj hdvdc hdvd (hltc.trans (by decide)) (hlt.trans (by decide)) hat

end Supply

end NoobKernel.Exec
