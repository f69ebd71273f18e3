import NoobKernel.Verification.Dcache.Table

/-! # Lookups in the dentry cache -/

namespace NoobKernel.Dcache

open Library

variable {c c' : Cache} {d : Ptr} {x : Dentry} {inserted : List Ptr}

/-- Sequences of `dentry_insert`, `dentry_delete` and `dentry_lookup` on any dentries, with the
dentries that were inserted and not deleted since. -/
inductive Sequence : Cache → List Ptr → Prop
  | init (dentries : Ptr → Option Dentry) : Sequence (dentryInit dentries) []
  | insert {c c' : Cache} {inserted : List Ptr} {room : Bool} {d : Ptr} {r : ℤ} :
      Sequence c inserted → dentryInsert room d c = .ok (r, c') →
      Sequence c' (if r = 0 then d :: inserted else inserted)
  | delete {c c' : Cache} {inserted : List Ptr} {d : Ptr} :
      Sequence c inserted → dentryDelete d c = .ok c' → Sequence c' (inserted.filter (· ≠ d))
  | lookup {c c' : Cache} {inserted : List Ptr} {sb parent : Ptr} {name : Qstr} {r : Option Ptr} :
      Sequence c inserted → dentryLookup sb parent name c = .ok (r, c') → Sequence c' inserted

theorem tidy_dentryInit (dentries : Ptr → Option Dentry) : Tidy (dentryInit dentries) :=
  ⟨rfl, Buckets.wf_empty, nofun⟩

theorem Tidy.count (h : Tidy c) (n : BitVec 32) : Tidy { c with count := n } := ⟨h.size, h.wf, h.own⟩

theorem Tidy.unhash (h : Tidy c) (hx : c.dentry d = some x) : Tidy (unhash d x c) := by
  rw [unhash_eq]
  split
  · exact h
  · exact ((h.eraseKey (x.key c.ht)).count (c.count - 1)).stay (stay_setDentry (x := x) hx rfl) rfl

theorem Tidy.dentryInsert (h : Tidy c) {room : Bool} {r : ℤ}
    (hr : dentryInsert room d c = .ok (r, c')) : Tidy c' := by
  rcases dentryInsert_ok hr with ⟨-, rfl, -⟩ | ⟨-, -, x, hx, -, rfl⟩
  · exact h
  · split
    · exact (h.insertKey hx).count (c.count + 1)
    · exact h.count (c.count + 1)

theorem Tidy.dentryDelete (h : Tidy c) (hr : dentryDelete d c = .ok c') : Tidy c' := by
  rcases dentryDelete_ok hr with ⟨-, rfl⟩ | ⟨-, x, hx, rfl⟩
  · exact h
  · split
    · exact (h.unhash hx).stay stay_free rfl
    · exact (h.unhash hx).stay (stay_setDentry (unhash_self hx) rfl) rfl

theorem Sequence.tidy (h : Sequence c inserted) : Tidy c := by
  induction h with
  | init dentries => exact tidy_dentryInit dentries
  | insert _ hr ih => exact ih.dentryInsert hr
  | delete _ hr ih => exact ih.dentryDelete hr
  | lookup _ hr ih => exact (ih.dentryLookup hr).2 ▸ ih

def Cached (c : Cache) (d : Ptr) : Prop := ∃ b k, ⟨k, d⟩ ∈ c.ht.buckets b

theorem Tidy.cached_iff (h : Tidy c) : Cached c d ↔ ∃ k, c.at k = some d := by
  constructor
  · rintro ⟨b, k, hmem⟩
    exact ⟨k, (h.mem_iff.mp hmem).2⟩
  · rintro ⟨k, hk⟩
    exact ⟨_, k, h.mem_iff.mpr ⟨rfl, hk⟩⟩

/-- The cache does what it is for: the dentries that were inserted are found, and there is one
dentry for each name in a directory. -/
structure Lookups (c : Cache) (inserted : List Ptr) : Prop where
  found : ∀ d ∈ inserted, ∃ x c', c.dentry d = some x ∧
    dentryLookup x.sb x.parent x.name c = .ok (some d, c')
  unique : ∀ d e x y, Cached c d → Cached c e → c.dentry d = some x → c.dentry e = some y →
    x.triple = y.triple → d = e

theorem Tidy.unique (h : Tidy c) {d e : Ptr} {x y : Dentry} (hd : Cached c d) (he : Cached c e)
    (hx : c.dentry d = some x) (hy : c.dentry e = some y) (htriple : x.triple = y.triple) :
    d = e := by
  obtain ⟨k, hk⟩ := h.cached_iff.mp hd
  obtain ⟨l, hl⟩ := h.cached_iff.mp he
  have hkl : k = l := by rw [h.own k d x hk hx, h.own l e y hl hy, Dentry.key_congr htriple]
  rw [← hkl] at hl
  exact Option.mem_unique hk hl

/-- `dentry_lookup` looks into another bucket than `dentry_insert`, so that it finds no dentry
ever. -/
theorem dentry_lookups_iff (h : Sequence c inserted) : Lookups c inserted ↔ inserted = [] := by
  constructor
  · intro hl
    cases inserted with
    | nil => rfl
    | cons d rest =>
      obtain ⟨x, c', -, hr⟩ := hl.found d List.mem_cons_self
      cases (h.tidy.dentryLookup hr).1
  · rintro rfl
    exact ⟨nofun, fun d e x y => h.tidy.unique⟩

def rootOnly : Ptr → Option Dentry :=
  Function.update (fun _ => none) 0x80401000 (some ⟨⟨[0x2F]⟩, 0x80400000, 0x80401000, 1, false⟩)

theorem sequence_root : ∃ c c', Sequence c [0x80401000] ∧ dentryDelete 0x80401000 c = .ok c' := by
  have hcheck : (dentryInsert true 0x80401000 (dentryInit rootOnly)).checks (fun r =>
      decide (r.1 = 0) && (dentryDelete 0x80401000 r.2).checks fun _ => true) = true := by
    decide +kernel
  obtain ⟨⟨r, c⟩, hrun, hr⟩ := Outcome.exists_of_checks hcheck
  rw [Bool.and_eq_true, decide_eq_true_eq] at hr
  obtain ⟨rfl, hdelete⟩ := hr
  obtain ⟨c', hrun', -⟩ := Outcome.exists_of_checks hdelete
  exact ⟨c, c', (Sequence.init rootOnly).insert hrun, hrun'⟩

/-- The root directory is inserted and deleted. -/
theorem dentry_lookups_deleted : ∃ c c', Sequence c [0x80401000] ∧
    dentryDelete 0x80401000 c = .ok c' ∧ Lookups c' [] := by
  obtain ⟨c, c', h, hdelete⟩ := sequence_root
  exact ⟨c, c', h, hdelete, (dentry_lookups_iff (h.delete hdelete)).mpr rfl⟩

theorem dentry_lookup_misses : ∃ c, Sequence c [0x80401000] ∧ ¬Lookups c [0x80401000] := by
  obtain ⟨c, -, h, -⟩ := sequence_root
  refine ⟨c, h, fun hl => ?_⟩
  obtain ⟨x, c', -, hr⟩ := hl.found _ List.mem_cons_self
  cases (h.tidy.dentryLookup hr).1

/-! ## What the dentry cache does to other dentries -/

open Function Outcome Option Chain

variable {c0 : Cache} {e : Ptr} {x' : Dentry} {k : Ptr} {call : Call} {room : Bool}

/-! ## Numbers of dentries -/

def number (c : Cache) : ℕ := Buckets.count buckets (fun d => (c.dentry d).isSome) c.ht.buckets

/-- What holds between two calls as long as no dentry gets in the way of another one. -/
structure Inv (c : Cache) : Prop extends Tidy c where
  live : ∀ k d, c.at k = some d → (c.dentry d).isSome
  count : c.count = BitVec.ofNat 32 (number c)

theorem number_congr (hht : c'.ht = c.ht)
    (h : ∀ d, Cached c d → (c'.dentry d).isSome = (c.dentry d).isSome) : number c' = number c := by
  rw [number, number, hht]
  exact Buckets.count_congr fun b node hmem => h node.2 ⟨b, node.1, hmem⟩

theorem number_setDentry {y : Option Dentry} (h : Cached c d → y.isSome = (c.dentry d).isSome) :
    number (setDentry d y c) = number c := by
  refine number_congr rfl fun e he => ?_
  by_cases hed : e = d
  · subst hed
    rw [setDentry_self, h he]
  · rw [setDentry_of_ne hed]

theorem Tidy.number_eraseKey (h : Tidy c) (k : Ptr) :
    number (Dcache.eraseKey k c) + one (fun d => (c.dentry d).isSome) (c.at k) = number c :=
  Buckets.count_erase (by rw [h.size]; exact hashPtr_lt k (by decide)) _

theorem Tidy.number_insertKey (h : Tidy c) (k d : Ptr) :
    number (Dcache.insertKey k d c) + one (fun d => (c.dentry d).isSome) (c.at k) =
      number c + one (fun d => (c.dentry d).isSome) (some d) :=
  Buckets.count_insert (by rw [h.size]; exact hashPtr_lt k (by decide)) _

theorem one_some (h : (c.dentry d).isSome) :
    one (fun d => (c.dentry d).isSome) (some d) = 1 := by
  simp [one, h]

theorem Tidy.at_inj (h : Tidy c) {k l : Ptr} (hk : c.at k = some d) (hl : c.at l = some d)
    (hx : c.dentry d = some x) : k = l :=
  (h.own k d x hk hx).trans (h.own l d x hl hx).symm

theorem Tidy.cached_update (h : Tidy c) {y : Option Ptr} (hat : c.at = update c0.at k y)
    (hy : y ≠ some e) : Cached c e ↔ ∃ l ≠ k, c0.at l = some e := by
  rw [h.cached_iff, hat]
  constructor
  · rintro ⟨l, hl⟩
    by_cases hlk : l = k
    · rw [hlk, update_self] at hl
      exact absurd hl hy
    · rw [update_of_ne hlk] at hl
      exact ⟨l, hlk, hl⟩
  · rintro ⟨l, hlk, hl⟩
    exact ⟨l, by rwa [update_of_ne hlk]⟩

section Update

variable (h : Tidy c) (h' : Tidy c') {y : Option Ptr} (hat : c'.at = update c.at k y)

include h h' hat

theorem Tidy.cached_of_ne (hy : y ≠ some e) (hk : c.at k ≠ some e) : Cached c' e ↔ Cached c e := by
  rw [h'.cached_update hat hy, h.cached_iff]
  exact ⟨fun ⟨l, _, hl⟩ => ⟨l, hl⟩, fun ⟨l, hl⟩ => ⟨l, fun heq => hk (heq ▸ hl), hl⟩⟩

theorem Tidy.not_cached (hy : y ≠ some e) (hk : c.at k = some e) (hx : c.dentry e = some x) :
    ¬Cached c' e := by
  rw [h'.cached_update hat hy]
  rintro ⟨l, hlk, hl⟩
  exact hlk (h.at_inj hl hk hx)

end Update

theorem Tidy.not_cached_eraseKey (h : Tidy c) (hk : c.at k = some d) (hx : c.dentry d = some x) :
    ¬Cached (Dcache.eraseKey k c) d :=
  h.not_cached (h.eraseKey k) (h.at_eraseKey k) nofun hk hx

theorem Tidy.number_free (h : Tidy c) (hk : c.at k = some d) (hx : c.dentry d = some x) :
    number (setDentry d none c) + 1 = number c := by
  have herase := h.number_eraseKey k
  rw [hk, one_some (by rw [hx]; rfl)] at herase
  have hfree : Tidy (setDentry d none c) := h.stay stay_free rfl
  have herase' := hfree.number_eraseKey k
  have hat : (setDentry d none c).at k = some d := hk
  have hone : one (fun e => ((setDentry d none c).dentry e).isSome) (some d) = 0 := by
    simp [one]
  rw [hat, hone, add_zero] at herase'
  have hsame : number (Dcache.eraseKey k (setDentry d none c)) = number (Dcache.eraseKey k c) :=
    number_setDentry (c := Dcache.eraseKey k c)
      (fun hcached => absurd hcached (h.not_cached_eraseKey hk hx))
  omega

theorem add_one_ne (n : BitVec 32) : n + 1 ≠ n := by bv_omega

theorem sub_one_ne (n : BitVec 32) : n - 1 ≠ n := by bv_omega

/-! ## Calls -/

inductive Call where
  | alloc (room : Bool) (d parent sb : Ptr) (name : Qstr)
  | get (d : Ptr)
  | put (d : Ptr)
  | lookup (sb parent : Ptr) (name : Qstr)
  | insert (room : Bool) (d : Ptr)
  | delete (d : Ptr)
  | free (d : Ptr)
  | lookupFails (room : Bool) (d base : Ptr) (name : Qstr)
deriving DecidableEq, Repr

/-- The calls on the cache; `lookupFails` is a path lookup of a name that the file system does
not find. -/
def step (call : Call) (c : Cache) : Outcome Cache :=
  match call with
  | .alloc room d parent sb name => (·.2) <$> dentryAlloc room d parent sb name c
  | .get d => dentryGet d c
  | .put d => dentryPut d c
  | .lookup sb parent name => (·.2) <$> dentryLookup sb parent name c
  | .insert room d => (·.2) <$> dentryInsert room d c
  | .delete d => dentryDelete d c
  | .free d => dentryFree d c
  | .lookupFails room d base name => (·.2) <$> vfsLookupSingle room true d none base name c

def Call.subject : Call → Option Ptr
  | .put d | .insert _ d | .delete d | .free d => some d
  | _ => none

/-- A call leaves the other dentries in the table or out of it, and the count is right. -/
structure Framed (call : Call) (c c' : Cache) : Prop where
  others : ∀ e, call.subject ≠ some e → (Cached c' e ↔ Cached c e)
  count : c'.count = BitVec.ofNat 32 (number c')

/-- The dentry is in the table under its key if it is not marked as being out of it, and it is
not in the table if it is marked and will be freed. -/
def Leaves (d : Ptr) (x : Dentry) (frees : Prop) (c : Cache) : Prop :=
  if x.unhashed then frees → ¬Cached c d else c.at (x.key c.ht) = some d

/-- The calls that do not get in the way of other dentries. -/
def Separate (call : Call) (c : Cache) : Prop :=
  match call with
  | .insert room d => ∀ x, d ≠ 0 → c.dentry d = some x → ¬Refused x c →
      c.at (x.key c.ht) = none ∧ room = true
  | .delete d => ∀ x, d ≠ 0 → c.dentry d = some x → Leaves d x (x.refcnt - 1 = 0) c
  | .free d => ∀ x, d ≠ 0 → c.dentry d = some x → Leaves d x True c
  | .put d => ∀ x, d ≠ 0 → c.dentry d = some x → x.refcnt - 1 = 0 ∧ x.unhashed = true → ¬Cached c d
  | .lookupFails room d _ _ => ¬(room = true ∧ d ≠ 0 ∧ c.dentry d = none)
  | _ => True

/-- What is to be proved of a call. -/
def Spec (call : Call) (c c' : Cache) : Prop :=
  (Separate call c → Inv c' ∧ Framed call c c') ∧ (¬Separate call c → ¬Framed call c c')

section Same

theorem framed_of_at (h : Inv c) (hht : c'.ht = c.ht) (hcount : c'.count = c.count)
    (hnumber : number c' = number c) : Framed call c c' := by
  refine ⟨fun e _ => ?_, by rw [hcount, h.count, hnumber]⟩
  rw [Cached, hht, Cached]

theorem Inv.same (h : Inv c) (hstay : Stay c c') (hht : c'.ht = c.ht)
    (hcount : c'.count = c.count)
    (hlive : ∀ d, Cached c d → (c'.dentry d).isSome = (c.dentry d).isSome) :
    Inv c' ∧ Framed call c c' := by
  have hnumber := number_congr hht hlive
  refine ⟨⟨h.toTidy.stay hstay hht, fun k d hk => ?_, by rw [hcount, h.count, hnumber]⟩,
    framed_of_at h hht hcount hnumber⟩
  rw [Cache.at, hht] at hk
  rw [hlive d (h.cached_iff.mpr ⟨k, hk⟩)]
  exact h.live k d hk

theorem Inv.updates (call : Call) (x' : Dentry) (h : Inv c) (hx : c.dentry d = some x)
    (htriple : x'.triple = x.triple) :
    Inv (setDentry d (some x') c) ∧ Framed call c (setDentry d (some x') c) := by
  refine h.same (stay_setDentry hx htriple) rfl rfl fun e _ => ?_
  by_cases hed : e = d
  · subst hed
    rw [setDentry_self, hx]
    rfl
  · rw [setDentry_of_ne hed]

theorem Inv.frees (call : Call) (h : Inv c) (hd : ¬Cached c d) :
    Inv (setDentry d none c) ∧ Framed call c (setDentry d none c) := by
  refine h.same stay_free rfl rfl fun e he => ?_
  have hed : e ≠ d := by
    rintro rfl
    exact hd he
  rw [setDentry_of_ne hed]

end Same

/-! ## Leaving the table -/

theorem Framed.trans {c1 : Cache} (h : ∀ e, call.subject ≠ some e → (Cached c1 e ↔ Cached c e))
    (h' : Framed call c1 c') : Framed call c c' :=
  ⟨fun e he => (h'.others e he).trans (h e he), h'.count⟩

theorem Tidy.cached_eraseKey (h : Tidy c) (hk : c.at k ≠ some e) :
    Cached (Dcache.eraseKey k c) e ↔ Cached c e :=
  h.cached_of_ne (h.eraseKey k) (h.at_eraseKey k) nofun hk

theorem unhash_of_hashed (h : x.unhashed = false) : unhash d x c =
    setDentry d (some { x with unhashed := true })
      { eraseKey (x.key c.ht) c with count := c.count - 1 } := by
  rw [unhash_eq, h]
  rfl

section Calls

variable (h : Inv c)

include h

theorem Inv.leaves (hx : c.dentry d = some x) (hun : x.unhashed = false)
    (hat : c.at (x.key c.ht) = some d) :
    Inv (unhash d x c) ∧ (∀ e, e ≠ d → (Cached (unhash d x c) e ↔ Cached c e)) ∧
      ¬Cached (unhash d x c) d := by
  have herase : Inv { eraseKey (x.key c.ht) c with count := c.count - 1 } := by
    refine ⟨(h.eraseKey _).count _, fun k e hk => ?_, ?_⟩
    · have hk' : update c.at (x.key c.ht) none k = some e := h.at_eraseKey _ ▸ hk
      by_cases hkk : k = x.key c.ht
      · rw [hkk, update_self] at hk'
        cases hk'
      · rw [update_of_ne hkk] at hk'
        exact h.live k e hk'
    · have hnumber := h.number_eraseKey (x.key c.ht)
      rw [hat, one_some (by rw [hx]; rfl)] at hnumber
      change c.count - 1 = BitVec.ofNat 32 (number (eraseKey (x.key c.ht) c))
      rw [h.count, ← hnumber]
      bv_omega
  rw [unhash_of_hashed hun]
  have hflag := (herase.updates (.free d) { x with unhashed := true } hx rfl).1
  refine ⟨hflag, fun e he => ?_, ?_⟩
  · exact h.cached_eraseKey (fun hk => he (mem_unique hk hat))
  · exact h.not_cached_eraseKey hat hx

theorem Inv.not_framed_unhash (hx : c.dentry d = some x) (hun : x.unhashed = false)
    (hat : c.at (x.key c.ht) ≠ some d) (hcall : ∀ e, e ≠ d → call.subject ≠ some e)
    (y : Option Dentry) : ¬Framed call c (setDentry d y (unhash d x c)) := by
  intro hframed
  rw [unhash_of_hashed hun, setDentry_setDentry] at hframed
  cases hkey : c.at (x.key c.ht) with
  | some e =>
    have hed : e ≠ d := by
      rintro rfl
      exact hat hkey
    obtain ⟨y', hy'⟩ := isSome_iff_exists.mp (h.live _ e hkey)
    have hcached : Cached c e := h.cached_iff.mpr ⟨_, hkey⟩
    exact h.not_cached_eraseKey hkey hy' ((hframed.others e (hcall e hed)).mpr hcached)
  | none =>
    have hnumber := h.number_eraseKey (x.key c.ht)
    rw [hkey, one, map_none, getD_none, add_zero] at hnumber
    have hd : ¬Cached (eraseKey (x.key c.ht) c) d := by
      rw [h.cached_eraseKey hat, h.cached_iff]
      rintro ⟨k, hk⟩
      exact hat (h.own k d x hk hx ▸ hk)
    have hsame := number_setDentry (c := { eraseKey (x.key c.ht) c with count := c.count - 1 })
      (y := y) (fun hcached => absurd hcached hd)
    have hcount := hframed.count
    rw [hsame] at hcount
    change c.count - 1 = BitVec.ofNat 32 (number (eraseKey (x.key c.ht) c)) at hcount
    rw [hnumber, ← h.count] at hcount
    exact sub_one_ne _ hcount

theorem Inv.not_framed_free (hx : c.dentry d = some x) (hd : Cached c d) :
    ¬Framed call c (setDentry d none c) := by
  intro hframed
  obtain ⟨k, hk⟩ := h.cached_iff.mp hd
  have hnumber := h.number_free hk hx
  have hcount : c.count = BitVec.ofNat 32 (number (setDentry d none c)) := hframed.count
  rw [h.count, ← hnumber] at hcount
  exact add_one_ne (BitVec.ofNat 32 (number (setDentry d none c))) (by
    bv_omega)

/-! ## Each call -/

theorem Inv.spec_self (call : Call) (hs : Separate call c) : Spec call c c :=
  ⟨fun _ => h.same (Stay.refl _) rfl rfl fun _ _ => rfl, fun hnot => absurd hs hnot⟩

theorem Inv.spec_drop {frees : Prop} [Decidable frees] (call : Call) (hx : c.dentry d = some x)
    (hc' : c' = if frees then setDentry d none c else setDentry d (some x') c)
    (hx' : x'.triple = x.triple) : ((frees → ¬Cached c d) → Inv c' ∧ Framed call c c') ∧
      (¬(frees → ¬Cached c d) → ¬Framed call c c') := by
  subst hc'
  by_cases hfrees : frees
  · rw [if_pos hfrees]
    refine ⟨fun hl => h.frees _ (hl hfrees), fun hnot => h.not_framed_free hx ?_⟩
    exact not_not.mp fun hout => hnot fun _ => hout
  · rw [if_neg hfrees]
    exact ⟨fun _ => h.updates _ _ hx hx', fun hnot => absurd (fun hl => absurd hl hfrees) hnot⟩

theorem Inv.spec_leave {frees : Prop} [Decidable frees] (hcall : call.subject = some d)
    (hx : c.dentry d = some x) (hc' : c' =
      if frees then setDentry d none (unhash d x c) else setDentry d (some x') (unhash d x c))
    (hx' : x'.triple = x.triple) :
    (Leaves d x frees c → Inv c' ∧ Framed call c c') ∧
      (¬Leaves d x frees c → ¬Framed call c c') := by
  rw [Leaves]
  cases hun : x.unhashed with
  | true =>
    rw [unhash_eq, if_pos hun] at hc'
    exact h.spec_drop call hx hc' hx'
  | false =>
    refine ⟨fun hat => ?_, fun hat => ?_⟩
    · obtain ⟨hinv, hothers, hout⟩ := h.leaves hx hun hat
      obtain ⟨hinv', hframed⟩ := (hinv.spec_drop call (unhash_self hx) hc' hx').1 fun _ => hout
      exact ⟨hinv', hframed.trans fun e he => hothers e fun heq => he (heq ▸ hcall)⟩
    · have hsubject : ∀ e, e ≠ d → call.subject ≠ some e :=
        fun e he heq => he (Option.some.inj (heq.symm.trans hcall))
      rw [hc']
      split
      · exact h.not_framed_unhash hx hun hat hsubject none
      · exact h.not_framed_unhash hx hun hat hsubject _

theorem Inv.spec_free (hr : dentryFree d c = .ok c') : Spec (.free d) c c' := by
  rcases dentryFree_ok hr with ⟨rfl, rfl⟩ | ⟨hd, x, hx, hc'⟩
  · exact h.spec_self _ fun _ hne => absurd rfl hne
  have hsep : Separate (.free d) c ↔ Leaves d x True c :=
    ⟨fun hs => hs x hd hx, fun hl y _ hy => mem_unique hx hy ▸ hl⟩
  have hfreed : c' = if True then setDentry d none (unhash d x c)
      else setDentry d (some x) (unhash d x c) := hc'.trans (if_pos trivial).symm
  rw [Spec, hsep]
  exact h.spec_leave rfl hx hfreed rfl

theorem Inv.spec_put (hr : dentryPut d c = .ok c') : Spec (.put d) c c' := by
  rcases dentryPut_ok hr with ⟨rfl, rfl⟩ | ⟨hd, x, hx, hc'⟩
  · exact h.spec_self _ fun _ hne => absurd rfl hne
  have hsep : Separate (.put d) c ↔ (x.refcnt - 1 = 0 ∧ x.unhashed = true → ¬Cached c d) :=
    ⟨fun hs => hs x hd hx, fun hl y _ hy => mem_unique hx hy ▸ hl⟩
  rw [Spec, hsep]
  exact h.spec_drop _ hx hc' rfl

theorem Inv.spec_delete (hr : dentryDelete d c = .ok c') : Spec (.delete d) c c' := by
  rcases dentryDelete_ok hr with ⟨rfl, rfl⟩ | ⟨hd, x, hx, hc'⟩
  · exact h.spec_self _ fun _ hne => absurd rfl hne
  have hsep : Separate (.delete d) c ↔ Leaves d x (x.refcnt - 1 = 0) c :=
    ⟨fun hs => hs x hd hx, fun hl y _ hy => mem_unique hx hy ▸ hl⟩
  rw [Spec, hsep]
  exact h.spec_leave rfl hx hc' rfl

theorem Inv.alloc (hnone : c.dentry d = none) (hnew : Dentry) (call : Call) :
    ¬Cached c d ∧ Inv (setDentry d (some hnew) c) ∧ Framed call c (setDentry d (some hnew) c) := by
  have hout : ¬Cached c d := by
    rw [h.cached_iff]
    rintro ⟨k, hk⟩
    have hlive := h.live k d hk
    rw [hnone] at hlive
    cases hlive
  have hne : ∀ k e, c.at k = some e → e ≠ d := by
    rintro k e hk rfl
    exact hout (h.cached_iff.mpr ⟨k, hk⟩)
  have hnumber : number (setDentry d (some hnew) c) = number c :=
    number_setDentry fun hcached => absurd hcached hout
  refine ⟨hout, ⟨⟨h.size, h.wf, fun k e x hk hx => ?_⟩, fun k e hk => ?_, ?_⟩,
    framed_of_at h rfl rfl hnumber⟩
  · rw [setDentry_of_ne (hne k e hk)] at hx
    exact h.own k e x hk hx
  · rw [setDentry_of_ne (hne k e hk)]
    exact h.live k e hk
  · rw [hnumber]
    exact h.count

theorem Inv.spec_insert {r : ℤ} (hr : dentryInsert room d c = .ok (r, c')) :
    Spec (.insert room d) c c' := by
  rcases dentryInsert_ok hr with ⟨-, rfl, hcase⟩ | ⟨-, hd, x, hx, hnot, rfl⟩
  · refine h.spec_self _ fun x hd hx hnot => ?_
    rcases hcase with hzero | ⟨-, y, hy, hrefused⟩
    · exact absurd hzero hd
    · exact absurd (mem_unique hx hy ▸ hrefused) hnot
  have hsep : Separate (.insert room d) c ↔ c.at (x.key c.ht) = none ∧ room = true :=
    ⟨fun hs => hs x hd hx hnot, fun hl y _ hy _ => mem_unique hx hy ▸ hl⟩
  have hlive : (c.dentry d).isSome := by rw [hx]; rfl
  have hsearch : searchBucket x.sb x.parent x.name c
      (c.ht.buckets (bucketOf c.ht.size (x.key c.ht))) = .ok none :=
    not_not.mp fun hne => hnot (Or.inr (Or.inr hne))
  rw [Spec, hsep]
  cases hkey : c.at (x.key c.ht) with
  | none =>
    cases room with
    | true =>
      refine ⟨fun _ => ?_, fun hns => absurd ⟨rfl, rfl⟩ hns⟩
      have hnumber := h.number_insertKey (x.key c.ht) d
      rw [hkey, one, map_none, getD_none, add_zero, one_some hlive] at hnumber
      have hcount : c.count + 1 = BitVec.ofNat 32 (number (insertKey (x.key c.ht) d c)) := by
        rw [hnumber, h.count]
        bv_omega
      have hat := at_insertKey (c := c) (x.key c.ht) d
      refine ⟨⟨(h.insertKey hx).count _, fun k e hk => ?_, hcount⟩, fun e he => ?_, hcount⟩
      · have hk' : update c.at (x.key c.ht) (some d) k = some e := hat ▸ hk
        by_cases hkk : k = x.key c.ht
        · rw [hkk, update_self] at hk'
          exact Option.some.inj hk' ▸ hlive
        · rw [update_of_ne hkk] at hk'
          exact h.live k e hk'
      · have hne : c.at (x.key c.ht) ≠ some e := fun hk => nomatch hkey.symm.trans hk
        exact (h.cached_of_ne (h.insertKey hx) hat he hne :)
    | false =>
      refine ⟨fun hsep => (nomatch hsep.2), fun _ hframed => ?_⟩
      have hcount := hframed.count
      exact add_one_ne c.count (hcount.trans h.count.symm)
  | some e =>
    refine ⟨fun hsep => (nomatch hsep.1), fun _ hframed => ?_⟩
    have hed : e ≠ d := by
      rintro rfl
      exact searchBucket_none hsearch _ e x (h.mem_iff.mpr ⟨rfl, hkey⟩) hd hx rfl
    obtain ⟨y, hy⟩ := isSome_iff_exists.mp (h.live _ e hkey)
    have hcached : Cached c e := h.cached_iff.mpr ⟨_, hkey⟩
    have hne : some d ≠ some e := fun heq => hed (Option.some.inj heq).symm
    exact h.not_cached (h.insertKey hx) (at_insertKey _ d) hne hkey hy
      ((hframed.others e hne).mpr hcached)

/-- A path lookup of a name that is not there takes another dentry out of the table, or makes
the count wrong. -/
theorem Inv.spec_lookupFails {base : Ptr} {name : Qstr} {r : Option Ptr}
    (hr : vfsLookupSingle room true d none base name c = .ok (r, c')) :
    Spec (.lookupFails room d base name) c c' := by
  rw [vfsLookupSingle] at hr
  split at hr
  · cases hr
  next x hx =>
    obtain ⟨⟨found, c1⟩, hlookup, hmiss⟩ := bind_eq_ok.mp hr
    obtain ⟨rfl, rfl⟩ := h.dentryLookup hlookup
    obtain ⟨⟨new, c2⟩, halloc, hnew⟩ := bind_eq_ok.mp hmiss
    rcases dentryAlloc_ok halloc with ⟨hcan, rfl, rfl⟩ | ⟨hcan, rfl, rfl⟩
    · obtain ⟨-, rfl⟩ := ok_mk_inj hnew
      exact h.spec_self _ hcan
    refine ⟨fun hnot => absurd hcan hnot, fun _ hframed => ?_⟩
    obtain ⟨c3, hfree, hlast⟩ := bind_eq_ok.mp hnew
    obtain ⟨-, rfl⟩ := ok_mk_inj hlast
    obtain ⟨hout, hinv, hsame⟩ := h.alloc hcan.2.2
      ⟨name, x.sb, if base ≠ 0 then base else d, 1, false⟩ (.lookupFails room d base name)
    rcases dentryFree_ok hfree with ⟨hzero, -⟩ | ⟨-, y, hy, rfl⟩
    · exact hcan.2.1 hzero
    rw [setDentry_self] at hy
    obtain rfl := Option.some.inj hy
    refine hinv.not_framed_unhash setDentry_self rfl ?_ (fun _ _ heq => by cases heq) none
      (Framed.trans (fun e he => (hsame.others e he).symm) hframed)
    exact fun hat => hout (h.cached_iff.mpr ⟨_, hat⟩)

omit h in
theorem spec_of_framed (hsep : Separate call c) (hs : Inv c' ∧ Framed call c c') : Spec call c c' :=
  ⟨fun _ => hs, fun hns => absurd hsep hns⟩

theorem Inv.spec (call : Call) (hr : step call c = .ok c') : Spec call c c' := by
  cases call with
  | alloc room d parent sb name =>
    obtain ⟨⟨r, c1⟩, halloc, rfl⟩ := map_eq_ok.mp hr
    rcases dentryAlloc_ok halloc with ⟨-, -, rfl⟩ | ⟨hcan, -, rfl⟩
    · exact h.spec_self _ trivial
    · exact spec_of_framed trivial (h.alloc hcan.2.2 _ _).2
  | get d =>
    rcases dentryGet_ok hr with rfl | ⟨x, hx, rfl⟩
    · exact h.spec_self _ trivial
    · exact spec_of_framed trivial (h.updates _ _ hx rfl)
  | put d => exact h.spec_put hr
  | lookup sb parent name =>
    obtain ⟨⟨r, c1⟩, hlookup, rfl⟩ := map_eq_ok.mp hr
    obtain ⟨-, rfl⟩ := h.dentryLookup hlookup
    exact h.spec_self _ trivial
  | insert room d =>
    obtain ⟨⟨r, c1⟩, hinsert, rfl⟩ := map_eq_ok.mp hr
    exact h.spec_insert hinsert
  | delete d => exact h.spec_delete hr
  | free d => exact h.spec_free hr
  | lookupFails room d base name =>
    obtain ⟨⟨r, c1⟩, hlookup, rfl⟩ := map_eq_ok.mp hr
    exact h.spec_lookupFails hlookup

end Calls

/-! ## Runs -/

/-- The runs whose calls satisfy `Ok`. -/
inductive Run (Ok : Call → Cache → Prop) : Cache → Prop
  | init : Run Ok (dentryInit fun _ => none)
  | step {c c' : Cache} (call : Call) : Run Ok c → Ok call c → step call c = .ok c' → Run Ok c'

theorem inv_init : Inv (dentryInit fun _ => none) := by
  refine ⟨tidy_dentryInit _, nofun, ?_⟩
  simp [number, Buckets.count, dentryInit, hashtableInit]

theorem Run.inv (h : Run Separate c) : Inv c := by
  induction h with
  | init => exact inv_init
  | step call _ hok hr ih => exact ((ih.spec call hr).1 hok).1

/-- In the runs in which no dentry got in the way of another one, a call leaves the other
dentries and the count as they have to be exactly if it does not get in the way of one. -/
theorem dentry_frame_iff (h : Run Separate c) (call : Call) (hr : step call c = .ok c') :
    Framed call c c' ↔ Separate call c := by
  obtain ⟨hsep, hnot⟩ := h.inv.spec call hr
  exact ⟨fun hframed => not_not.mp fun hns => hnot hns hframed, fun hs => (hsep hs).2⟩

def rootCache : Cache := dentryInit rootOnly

theorem exists_rooted {P : Cache → Bool}
    (hcheck : (step (.insert true 0x80401000) rootCache).checks P = true) :
    ∃ c, Run Separate c ∧ P c = true := by
  obtain ⟨c, hr, hc⟩ := exists_of_checks hcheck
  have hroot : Run Separate rootCache :=
    Run.init.step (.alloc true 0x80401000 0 0x80400000 ⟨[0x2F]⟩) trivial rfl
  exact ⟨c, hroot.step (.insert true _) (fun _ _ _ _ => ⟨rfl, rfl⟩) hr, hc⟩

/-- The name `a` is inserted behind the root directory. -/
theorem dentry_frame_second : ∃ c c', hashtableLookup (keyPtr 122) c.ht = some 0x80401000 ∧
    step (.insert true 0x80402000) c = .ok c' ∧ Framed (.insert true 0x80402000) c c' := by
  obtain ⟨c, hrun, hc⟩ := exists_rooted (P := fun c =>
    (step (.alloc true 0x80402000 0x80401000 0x80400000 ⟨[0x61]⟩) c).checks fun c =>
      decide (hashtableLookup (keyPtr 122) c.ht = some 0x80401000) &&
        ((c.dentry 0x80402000).all fun x => c.at (x.key c.ht) = none) &&
        (step (.insert true 0x80402000) c).checks fun _ => true) (by decide +kernel)
  obtain ⟨c1, hr1, hc1⟩ := exists_of_checks hc
  rw [Bool.and_eq_true, Bool.and_eq_true, decide_eq_true_eq] at hc1
  obtain ⟨⟨hroot, hfree⟩, hc1⟩ := hc1
  obtain ⟨c', hr', -⟩ := exists_of_checks hc1
  have hrun1 := hrun.step (.alloc true 0x80402000 0x80401000 0x80400000 ⟨[0x61]⟩) trivial hr1
  refine ⟨c1, c', hroot, hr', (dentry_frame_iff hrun1 _ hr').mpr ?_⟩
  intro x _ hx _
  rw [hx] at hfree
  exact ⟨of_decide_eq_true hfree, rfl⟩

/-- The name `cf` has the key of the root directory. When it is not found, the root directory
leaves the table. -/
theorem failed_lookup_displaces : ∃ c c', Run Separate c ∧
    hashtableLookup (keyPtr 122) c.ht = some 0x80401000 ∧
    step (.lookupFails true 0x80402000 0x80401000 ⟨[0x63, 0x66]⟩) c = .ok c' ∧
    hashtableLookup (keyPtr 122) c'.ht = none ∧
    ¬Framed (.lookupFails true 0x80402000 0x80401000 ⟨[0x63, 0x66]⟩) c c' := by
  obtain ⟨c, h, hc⟩ := exists_rooted (P := fun c =>
    decide (hashtableLookup (keyPtr 122) c.ht = some 0x80401000 ∧ c.dentry 0x80402000 = none) &&
      (step (.lookupFails true 0x80402000 0x80401000 ⟨[0x63, 0x66]⟩) c).checks (fun c' =>
        decide (hashtableLookup (keyPtr 122) c'.ht = none))) (by decide +kernel)
  obtain ⟨hbefore, hc⟩ := (Bool.and_eq_true_iff ..).mp hc
  obtain ⟨hat, hnone⟩ := of_decide_eq_true hbefore
  obtain ⟨c', hr', hafter⟩ := exists_of_checks hc
  refine ⟨c, c', h, hat, hr', of_decide_eq_true hafter, (h.inv.spec _ hr').2 ?_⟩
  exact not_not.mpr ⟨rfl, by decide, hnone⟩

end NoobKernel.Dcache
