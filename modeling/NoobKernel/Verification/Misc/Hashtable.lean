import NoobKernel.Model.Hashtable

/-! # The generic hash table is a map -/

namespace NoobKernel

open Function Library

variable {size : ℕ} {ht : CountedTable} {f : Ptr → Option Ptr}

theorem bucketOf_lt (hsize : 0 < size) (key : Ptr) : bucketOf size key < size :=
  lt_of_le_of_lt Nat.and_le_right (by omega)

/-- The table stands for the map. -/
structure Refines (size : ℕ) (ht : CountedTable) (f : Ptr → Option Ptr) : Prop where
  size_eq : ht.size = size
  wf : ht.buckets.Wf (bucketOf size)
  find : ∀ key, ht.buckets.find (bucketOf size) key = f key
  count : ht.count = ht.buckets.count size (fun _ => true)

theorem Refines.insert (h : Refines size ht f) (hsize : 0 < size) (room : Bool) (key value : Ptr) :
    Refines size (ht.insert room key value).2
      (if (ht.insert room key value).1 = 0 then update f key (some value) else f) := by
  obtain ⟨rfl, hwf, hfind, hcount⟩ := h
  have hadd := Buckets.count_insert (t := ht.buckets) (v := value) (bucketOf_lt hsize key)
    (fun _ => true)
  simp only [CountedTable.insert, hashtableInsert, hashtableLookup, hfind] at hadd ⊢
  split
  next hcan =>
    refine ⟨rfl, hwf.insert, fun key' => ?_, ?_⟩
    · simpa [update_apply, ← hfind] using Buckets.find_insert key'
    · cases hkey : f key <;> simp_all [Chain.one]
  next hcan =>
    rw [not_or] at hcan
    refine ⟨rfl, hwf, by simpa [enomem] using hfind, ?_⟩
    simpa [hcan.2] using hcount

theorem Refines.delete (h : Refines size ht f) (hsize : 0 < size) (key : Ptr) :
    Refines size (ht.delete key).2 (update f key none) := by
  obtain ⟨rfl, hwf, hfind, hcount⟩ := h
  have hsub := Buckets.count_erase (t := ht.buckets) (bucketOf_lt hsize key) (fun _ => true)
  simp only [CountedTable.delete, hashtableDelete, hfind] at hsub ⊢
  refine ⟨rfl, hwf.erase, fun key' => ?_, ?_⟩
  · simpa [update_apply, ← hfind] using hwf.find_erase key'
  · cases hkey : f key <;> simp_all [Chain.one]
    omega

theorem HashRun.refines (h : HashRun size ht f) (hsize : 0 < size) : Refines size ht f := by
  induction h with
  | init => exact ⟨rfl, Buckets.wf_empty, fun _ => rfl, by simp [hashtableInit, Buckets.count]⟩
  | insert room key value _ ih => exact ih.insert hsize room key value
  | delete key _ ih => exact ih.delete hsize key

/-- A table refines the map of the successful calls. Its nodes are in the buckets of their keys,
each key has one at most, and they are counted. -/
theorem hashtable_refines_map (e : ℕ) (h : HashRun (2 ^ e) ht f) :
    (∀ key, (hashtableLookup key ht.toHashtable).getD 0 = (f key).getD 0) ∧
      (∀ key, ((ht.delete key).1).getD 0 = (f key).getD 0) ∧
      (∀ b, (ht.buckets b).NodupKeys) ∧
      (∀ b, ∀ x ∈ ht.buckets b, b = hashPtr x.1 (2 ^ e) ∧ b < 2 ^ e) ∧
      (∀ room key value, (ht.insert room key value).1 ≠ 0 → (ht.insert room key value).2 = ht) ∧
      ht.count = ∑ b ∈ Finset.range (2 ^ e), (ht.buckets b).length := by
  have hpos := Nat.two_pow_pos e
  obtain ⟨hsize, hwf, hfind, hcount⟩ := h.refines hpos
  have hlookup : ∀ key, hashtableLookup key ht.toHashtable = f key := by
    intro key
    rw [hashtableLookup, hsize, hfind]
  refine ⟨fun key => by rw [hlookup], fun key => congrArg (Option.getD · 0) (hlookup key), hwf.nodup,
    fun b x hx => ?_,
      fun room key value hne => ?_, by simpa [Buckets.count, Chain.count] using hcount⟩
  · obtain rfl := hwf.placed b x hx
    exact ⟨rfl, bucketOf_lt hpos x.1⟩
  · simp only [CountedTable.insert, hashtableInsert] at hne ⊢
    split at hne
    · exact absurd rfl hne
    next hcan =>
      rw [not_or] at hcan
      simp [hcan.1, hcan.2]

/-- A key is inserted, and another one is not for want of memory. -/
theorem hashtable_refines_map_one : ∃ ht f, HashRun (2 ^ 3) ht f ∧
    (hashtableLookup 8 ht.toHashtable).getD 0 = 5 ∧
      (hashtableLookup 9 ht.toHashtable).getD 0 = 0 := by
  have h : HashRun (2 ^ 3) _ _ := (HashRun.init.insert true 8 5).insert false 9 6
  have hspec := (hashtable_refines_map 3 h).1
  exact ⟨_, _, h, hspec 8, hspec 9⟩

end NoobKernel
