import Mathlib.Data.List.GetD
import Mathlib.Algebra.Order.Ring.Nat

/-! # Ranges of a device

A device is a function from addresses to what lies there. Ranges of it are read and written as
lists. A device with blocks of one size is seen as a function from the numbers of blocks. -/

namespace NoobKernel.Library

open List Nat

/-! ## Buffers -/

section Patch

variable {α : Type*} {off : ℕ} {us vs zs : List α}

/-- The buffer with a range replaced. -/
def patch (off : ℕ) (xs buf : List α) : List α := buf.take off ++ (xs ++ buf.drop (off + xs.length))

@[simp] theorem length_patch (h : off + us.length ≤ vs.length) :
    (patch off us vs).length = vs.length := by
  simp only [patch, length_append, length_take, length_drop]
  omega

theorem patch_append (hoff : zs.length = off) {us' : List α} (hlen : us'.length = us.length) :
    patch off us' (zs ++ (us ++ vs)) = zs ++ (us' ++ vs) := by
  rw [patch, take_left' hoff, ← drop_drop, drop_left' hoff, drop_left' hlen.symm]

theorem patch_add (hoff : zs.length = off) (k : ℕ) :
    patch (off + k) us (zs ++ vs) = zs ++ patch k us vs := by
  subst hoff
  simp only [patch, take_length_add_append, add_assoc, drop_length_add_append, append_assoc]

theorem patch_left (h : off + us.length ≤ vs.length) :
    patch off us (vs ++ zs) = patch off us vs ++ zs := by
  simp only [patch, append_assoc]
  rw [take_append_of_le_length (by omega), drop_append_of_le_length h]

theorem patch_within {k : ℕ} {ws : List α} (h : k + us.length ≤ vs.length) :
    patch (zs.length + k) us (zs ++ (vs ++ ws)) = zs ++ (patch k us vs ++ ws) := by
  rw [patch_add rfl, patch_left h]

theorem patch_zero : patch 0 us vs = us ++ vs.drop us.length := by
  rw [patch, take_zero, nil_append, zero_add]

theorem getElem?_patch (h : off + us.length ≤ vs.length) (i : ℕ) :
    (patch off us vs)[i]? =
      if i < off then vs[i]? else if i < off + us.length then us[i - off]? else vs[i]? := by
  have hlen : (vs.take off).length = off := length_take_of_le (by omega)
  rw [patch]
  split
  next hi => rw [getElem?_append_left (by omega), getElem?_take_of_lt hi]
  next hi =>
    rw [getElem?_append_right (by omega), hlen]
    split
    next hi' => rw [getElem?_append_left (by omega)]
    next hi' =>
      rw [getElem?_append_right (by omega), getElem?_drop]
      congr 1
      omega

end Patch

/-! ## Devices -/

/-- The contents of a device. -/
abbrev Disk (α : Type*) := ℕ → α

namespace Disk

variable {α β : Type*} {d : Disk α} {off n m a : ℕ} {xs ys : List α}

/-- The contents of a range. -/
def slice (d : Disk α) (off n : ℕ) : List α := (range' off n).map d

/-- The device after a list has been written to a range. -/
def store (off : ℕ) (xs : List α) (d : Disk α) : Disk α := fun a =>
  if off ≤ a then xs.getD (a - off) (d a) else d a

/-! ## Reading -/

@[simp] theorem length_slice : (d.slice off n).length = n := by simp [slice]

@[simp] theorem slice_zero : d.slice off 0 = [] := rfl

theorem slice_add : d.slice off (m + n) = d.slice off m ++ d.slice (off + m) n := by
  rw [slice, slice, slice, ← map_append, range'_append_1]

theorem getElem?_slice {i : ℕ} (h : i < n) : (d.slice off n)[i]? = some (d (off + i)) := by
  simp [slice, h]

theorem getD_slice {i : ℕ} {x : α} (h : i < n) : (d.slice off n).getD i x = d (off + i) := by
  rw [getD_eq_getElem?_getD, getElem?_slice h, Option.getD_some]

theorem drop_slice : (d.slice off n).drop m = d.slice (off + m) (n - m) := by
  rcases le_total m n with h | h
  · conv_lhs => rw [← Nat.add_sub_cancel' h, slice_add]
    exact drop_left' length_slice
  · rw [Nat.sub_eq_zero_of_le h, slice_zero]
    exact drop_eq_nil_of_le (by simpa using h)

theorem take_slice : (d.slice off n).take m = d.slice off (min m n) := by
  rcases le_total m n with h | h
  · conv_lhs => rw [← Nat.add_sub_cancel' h, slice_add]
    rw [min_eq_left h]
    exact take_left' length_slice
  · rw [min_eq_right h]
    exact take_of_length_le (by simpa using h)

theorem slice_congr {d' : Disk α} (h : ∀ a, off ≤ a → a < off + n → d' a = d a) :
    d'.slice off n = d.slice off n := by
  refine map_congr_left fun a ha => ?_
  rw [mem_range'_1] at ha
  exact h a ha.1 ha.2

/-! ## Writing -/

@[simp] theorem store_nil : store off [] d = d := by
  funext a
  simp [store]

theorem store_of_lt (h : a < off) : store off xs d a = d a := if_neg (not_le.mpr h)

theorem store_of_ge (h : off + xs.length ≤ a) : store off xs d a = d a := by
  rw [store, if_pos (by omega), getD_eq_default _ _ (by omega)]

theorem store_of_not_mem (h : ¬ (off ≤ a ∧ a < off + xs.length)) : store off xs d a = d a := by
  rcases lt_or_ge a off with hlt | hle
  · exact store_of_lt hlt
  · exact store_of_ge (not_lt.mp fun hlt => h ⟨hle, hlt⟩)

theorem store_apply (hle : off ≤ a) (hlt : a < off + xs.length) (x : α) :
    store off xs d a = xs.getD (a - off) x := by
  have hi : a - off < xs.length := by omega
  rw [store, if_pos hle, getD_eq_getElem _ _ hi, getD_eq_getElem _ _ hi]

theorem store_append : store off (xs ++ ys) d = store (off + xs.length) ys (store off xs d) := by
  funext a
  rcases lt_or_ge a (off + xs.length) with h | h
  · rw [store_of_lt h]
    rcases lt_or_ge a off with hoff | hoff
    · rw [store_of_lt hoff, store_of_lt hoff]
    · rw [store_apply hoff h (d a), store_apply hoff (by rw [length_append]; omega) (d a),
        getD_append _ _ _ _ (by omega)]
  · rw [store, if_pos (by omega), store, if_pos h, store_of_ge h,
      getD_append_right _ _ _ _ (by omega), Nat.sub_sub]

theorem slice_store_of_disjoint (h : off + n ≤ m ∨ m + xs.length ≤ off) :
    (store m xs d).slice off n = d.slice off n := by
  refine slice_congr fun a hle hlt => ?_
  rcases h with h | h
  · exact store_of_lt (by omega)
  · exact store_of_ge (by omega)

theorem slice_store_self : (store off xs d).slice off xs.length = xs := by
  refine ext_getElem (by simp) fun i hi hi' => ?_
  have happly := store_apply (d := d) (a := off + i) (le_add_right off i)
    (Nat.add_lt_add_left hi' off) (xs[i])
  rw [Nat.add_sub_cancel_left, getD_eq_getElem _ _ hi'] at happly
  simpa [slice] using happly

theorem slice_store_eq (h : xs.length = n) : (store off xs d).slice off n = xs := by
  subst h
  exact slice_store_self

theorem store_slice : store off (d.slice off n) d = d := by
  funext a
  rcases lt_or_ge a off with h | h
  · exact store_of_lt h
  rcases lt_or_ge a (off + n) with h' | h'
  · rw [store, if_pos h, getD_slice (by omega), Nat.add_sub_cancel' h]
  · exact store_of_ge (by simpa using h')

theorem store_patch (h : m + xs.length ≤ n) :
    store off (patch m xs (d.slice off n)) d = store (off + m) xs d := by
  have hrest : (store (off + m) xs d).slice (off + m + xs.length) (n - (m + xs.length)) =
      d.slice (off + m + xs.length) (n - (m + xs.length)) :=
    slice_store_of_disjoint (Or.inr (le_refl _))
  rw [patch, take_slice, drop_slice, min_eq_left (by omega), store_append, store_slice,
    length_slice, store_append, ← add_assoc, ← hrest, store_slice]

theorem slice_store_within (h : m + xs.length ≤ n) :
    (store (off + m) xs d).slice off n = patch m xs (d.slice off n) := by
  rw [← store_patch h]
  refine slice_store_eq ?_
  rw [length_patch (by rwa [length_slice]), length_slice]

/-! ## Blocks -/

/-- The contents of a block. -/
def block (size b : ℕ) (d : Disk α) : List α := d.slice (b * size) size

def setBlock (size b : ℕ) (xs : List α) (d : Disk α) : Disk α := store (b * size) xs d

variable {size b c : ℕ}

@[simp] theorem length_block : (d.block size b).length = size := length_slice

theorem mem_block_iff (h : 0 < size) : b * size ≤ a ∧ a < b * size + size ↔ a / size = b := by
  rw [Nat.div_eq_iff h]
  omega

theorem blocks_disjoint (h : b ≠ c) : c * size + size ≤ b * size ∨ b * size + size ≤ c * size := by
  rcases lt_or_gt_of_ne h with hlt | hgt
  · right
    rw [← succ_mul]
    exact mul_le_mul_right size hlt
  · left
    rw [← succ_mul]
    exact mul_le_mul_right size hgt

theorem block_setBlock_self (h : xs.length = size) : (setBlock size b xs d).block size b = xs := by
  exact slice_store_eq h

theorem block_setBlock_of_ne (h : xs.length = size) (hne : b ≠ c) :
    (setBlock size b xs d).block size c = d.block size c := by
  refine slice_store_of_disjoint ?_
  rw [h]
  exact blocks_disjoint hne

end Disk

/-! ## Numbers in buffers

A buffer is a list of bytes. Numbers lie in it with the lowest byte first. -/

variable {w n off : ℕ} {bs xs ys : List UInt8}

/-- The number that the bytes of a list stand for. -/
def ofBytes : List UInt8 → ℕ
  | [] => 0
  | b :: bs => b.toNat + 256 * ofBytes bs

/-- A number as a list of bytes, without what does not fit. -/
def toBytes : ℕ → ℕ → List UInt8
  | 0, _ => []
  | w + 1, n => UInt8.ofNat n :: toBytes w (n / 256)

/-- The number of a given width at an offset. -/
def field (w off : ℕ) (buf : List UInt8) : ℕ := ofBytes ((buf.drop off).take w)

@[simp] theorem length_toBytes (w n : ℕ) : (toBytes w n).length = w := by
  induction w generalizing n with
  | zero => rfl
  | succ w ih => simp [toBytes, ih]

theorem ofBytes_toBytes (w n : ℕ) : ofBytes (toBytes w n) = n % 256 ^ w := by
  induction w generalizing n with
  | zero => simp [toBytes, ofBytes, mod_one]
  | succ w ih =>
    have hlow : (UInt8.ofNat n).toNat = n % 256 := by simp
    rw [toBytes, ofBytes, ih, hlow, pow_succ, mul_comm (256 ^ w), mod_mul]

theorem ofBytes_lt (bs : List UInt8) : ofBytes bs < 256 ^ bs.length := by
  induction bs with
  | nil => simp [ofBytes]
  | cons b bs ih =>
    have hb := b.toNat_lt
    simp only [ofBytes, length_cons, pow_succ]
    omega

theorem field_lt : field w off bs < 256 ^ w := by
  refine lt_of_lt_of_le (ofBytes_lt _) (Nat.pow_le_pow_right (by decide) ?_)
  simp

theorem ofBytes_replicate_zero (n : ℕ) : ofBytes (List.replicate n 0) = 0 := by
  induction n with
  | zero => rfl
  | succ n ih => simp [replicate_succ, ofBytes, ih]

theorem field_replicate_zero (n : ℕ) : field w off (List.replicate n 0) = 0 := by
  rw [field, drop_replicate, take_replicate, ofBytes_replicate_zero]

theorem field_append (hoff : xs.length = off) (hw : ys.length = w) :
    field w off (xs ++ (ys ++ bs)) = ofBytes ys := by
  rw [field, drop_left' hoff, take_left' hw]

theorem field_toBytes (hoff : xs.length = off) (hn : n < 256 ^ w) :
    field w off (xs ++ (toBytes w n ++ bs)) = n := by
  rw [field_append hoff (length_toBytes w n), ofBytes_toBytes, mod_eq_of_lt hn]

theorem field_add (hoff : xs.length = off) (k : ℕ) :
    field w (off + k) (xs ++ ys) = field w k ys := by
  rw [field, field, ← drop_drop, drop_left' hoff]

theorem field_congr (h : ∀ i, off ≤ i → i < off + w → xs[i]? = ys[i]?) :
    field w off xs = field w off ys := by
  refine congrArg ofBytes (ext_getElem? fun i => ?_)
  rw [getElem?_take, getElem?_take]
  split
  next hi => rw [getElem?_drop, getElem?_drop, h _ (by omega) (by omega)]
  · rfl

theorem field_patch_of_disjoint {p : ℕ} (hfits : p + xs.length ≤ bs.length)
    (h : off + w ≤ p ∨ p + xs.length ≤ off) : field w off (patch p xs bs) = field w off bs := by
  refine field_congr fun i hle hlt => ?_
  rw [getElem?_patch hfits]
  split
  · rfl
  · rw [if_neg (by omega)]

theorem field_patch_self (hfits : off + w ≤ bs.length) :
    field w off (patch off (toBytes w n) bs) = n % 256 ^ w := by
  rw [patch, field_append (length_take_of_le (by omega)) (length_toBytes w n), ofBytes_toBytes]

end NoobKernel.Library
