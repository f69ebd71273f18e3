import NoobKernel.Model.Ext4Dir
import NoobKernel.Verification.Ext4.Mapping

/-! # Entries of a directory

A block of a directory is a list of slots, each with a header and a body that begins with its name. A
name that is looked up is that of the first slot in use. -/

namespace NoobKernel.Ext4

open Library List

/-- An entry of a directory, in use or free. Its body is large enough for its name. -/
structure Slot where
  ino : ℕ
  nameLen : ℕ
  fileType : ℕ
  body : List UInt8
  ino_lt : ino < 2 ^ 32
  nameLen_lt : nameLen < 2 ^ 8
  type_lt : fileType < 2 ^ 8
  fits : nameLen ≤ body.length
  aligned : 4 ∣ body.length
  short : direntSize + body.length < 2 ^ 16

namespace Slot

def recLen (t : Slot) : ℕ := direntSize + t.body.length

def name (t : Slot) : List UInt8 := t.body.take t.nameLen

variable {t : Slot} {name : List UInt8} {pre post : List UInt8}

def header (ino recLen nameLen fileType : ℕ) : List UInt8 :=
  toBytes 4 ino ++ (toBytes 2 recLen ++ (toBytes 1 nameLen ++ toBytes 1 fileType))

def bytes (t : Slot) : List UInt8 := header t.ino t.recLen t.nameLen t.fileType ++ t.body

def named (name : List UInt8) (t : Slot) : Bool := t.nameLen = name.length && t.name = name

/-- The slot is in use for a name. -/
def holds (name : List UInt8) (t : Slot) : Bool := t.ino ≠ 0 && t.named name

@[simp] theorem length_header (ino recLen nameLen fileType : ℕ) :
    (header ino recLen nameLen fileType).length = direntSize := by
  simp [header]

@[simp] theorem length_bytes (t : Slot) : t.bytes.length = t.recLen := by
  simp [bytes, recLen]

theorem recLen_pos (t : Slot) : 0 < t.recLen := by
  exact Nat.add_pos_left (by decide) _

/-! ## Reading a slot -/

theorem deInode_eq : deInode (pre ++ (t.bytes ++ post)) pre.length = t.ino := by
  have h := t.ino_lt
  rw [bytes, header]
  exact field_toBytes rfl h

theorem deRecLen_eq : deRecLen (pre ++ (t.bytes ++ post)) pre.length = t.recLen := by
  have h : t.recLen < 256 ^ 2 := t.short
  rw [deRecLen, field_add rfl, bytes, header]
  exact field_toBytes (length_toBytes 4 _) h

theorem deNameLen_eq : deNameLen (pre ++ (t.bytes ++ post)) pre.length = t.nameLen := by
  have h := t.nameLen_lt
  have hsplit : t.bytes ++ post = (toBytes 4 t.ino ++ toBytes 2 t.recLen) ++
      (toBytes 1 t.nameLen ++ (toBytes 1 t.fileType ++ (t.body ++ post))) := by
    simp only [Slot.bytes, header, append_assoc]
  rw [deNameLen, field_add rfl, hsplit]
  exact field_toBytes (by simp) h

theorem drop_header :
    (pre ++ (t.bytes ++ post)).drop (pre.length + direntSize) = t.body ++ post := by
  rw [← drop_drop, drop_left, bytes, append_assoc]
  exact drop_left' (length_header _ _ _ _)

theorem deMatches_eq (hname : name.length < 2 ^ 8) :
    deMatches (pre ++ (t.bytes ++ post)) pre.length name = t.named name := by
  rw [deMatches, deNameLen_eq, Nat.mod_eq_of_lt hname, drop_header, named]
  by_cases hlen : t.nameLen = name.length
  · rw [← hlen, take_append_of_le_length t.fits, Slot.name]
  · simp [hlen]

end Slot

/-! ## Lists of slots -/

def slotBytes (slots : List Slot) : List UInt8 := slots.flatMap Slot.bytes

/-- The inode number for a name, and zero without one. -/
def lookup (name : List UInt8) (slots : List Slot) : ℕ :=
  ((slots.find? (Slot.holds name)).map Slot.ino).getD 0

variable {t u : Slot} {slots front back : List Slot} {name other : List UInt8}

@[simp] theorem slotBytes_nil : slotBytes [] = [] := rfl

@[simp] theorem slotBytes_cons : slotBytes (t :: slots) = t.bytes ++ slotBytes slots := rfl

@[simp] theorem slotBytes_append : slotBytes (front ++ back) = slotBytes front ++ slotBytes back :=
  flatMap_append

theorem length_le_slotBytes (slots : List Slot) : slots.length ≤ (slotBytes slots).length := by
  induction slots with
  | nil => exact le_rfl
  | cons t slots ih =>
    have hpos := t.recLen_pos
    simp only [slotBytes_cons, length_cons, length_append, Slot.length_bytes]
    omega

/-- A position in a buffer, with the slots from there on. -/
structure At (buf : List UInt8) (size pos : ℕ) (slots : List Slot) : Prop where
  bytes : ∃ pre post, buf = pre ++ (slotBytes slots ++ post) ∧ pos = pre.length
  size_eq : size = pos + (slotBytes slots).length

theorem exists_fuel {α : Type*} {x : α} {xs : List α} {fuel : ℕ} (h : (x :: xs).length ≤ fuel) :
    ∃ k, fuel = k + 1 ∧ xs.length ≤ k := by
  rw [length_cons] at h
  exact ⟨fuel - 1, by omega, by omega⟩

theorem At.split {buf : List UInt8} {size pos : ℕ} (h : At buf size pos (t :: slots)) :
    pos < size ∧ At buf size (pos + t.recLen) slots ∧
      ∃ pre post, buf = pre ++ (t.bytes ++ post) ∧ pos = pre.length := by
  obtain ⟨⟨pre, post, hbuf, rfl⟩, hsize⟩ := h
  have hpos := t.recLen_pos
  rw [slotBytes_cons, append_assoc] at hbuf
  rw [slotBytes_cons, length_append, Slot.length_bytes] at hsize
  refine ⟨by omega, ⟨⟨pre ++ t.bytes, post, by rw [hbuf, append_assoc], by simp⟩, by omega⟩, ?_⟩
  exact ⟨pre, _, hbuf, rfl⟩

theorem lookup_cons :
    lookup name (t :: slots) = if t.holds name then t.ino else lookup name slots := by
  unfold lookup
  rw [List.find?_cons]
  cases t.holds name <;> rfl

@[simp] theorem lookup_nil : lookup name [] = 0 := rfl

theorem Slot.ino_ne_zero (h : t.holds name = true) : t.ino ≠ 0 := by
  simp only [holds, Bool.and_eq_true, decide_eq_true_eq] at h
  exact h.1

theorem lookup_eq_zero : lookup name slots = 0 ↔ ∀ t ∈ slots, t.holds name = false := by
  induction slots with
  | nil => simp
  | cons t slots ih =>
    rw [lookup_cons, forall_mem_cons]
    cases h : t.holds name with
    | false => simpa using ih
    | true => simpa using Slot.ino_ne_zero h

theorem lookup_append : lookup name (front ++ back) =
    if lookup name front = 0 then lookup name back else lookup name front := by
  induction front with
  | nil => simp
  | cons t front ih =>
    rw [cons_append, lookup_cons, lookup_cons, ih]
    cases h : t.holds name with
    | false => simp
    | true => simp [Slot.ino_ne_zero h]

theorem Slot.holds_of_ne (h : t.name = other) (hne : name ≠ other) : t.holds name = false := by
  have hname : t.named name = false := by
    simp only [named, h, Bool.and_eq_false_iff, decide_eq_false_iff_not]
    exact Or.inr (Ne.symm hne)
  rw [holds, hname, Bool.and_false]

theorem Slot.holds_of_free (h : t.ino = 0) : t.holds name = false := by
  simp [holds, h]

theorem lookup_free (h : t.ino = 0) :
    lookup name (front ++ t :: back) = lookup name (front ++ back) := by
  rw [lookup_append, lookup_append, lookup_cons, Slot.holds_of_free h, if_neg Bool.false_ne_true]

/-- The slot is in use for a name, if the inode number is not zero. -/
structure Slot.IsFor (u : Slot) (ino : ℕ) (name : List UInt8) : Prop where
  ino : u.ino = ino
  nameLen : u.nameLen = name.length
  name : u.name = name

theorem lookup_insert {ino : ℕ} (hu : u.IsFor ino other)
    (habsent : lookup other (front ++ back) = 0) :
    lookup name (front ++ u :: back) = if name = other then ino else lookup name
      (front ++ back) := by
  obtain ⟨rfl, hlen, hnamed⟩ := hu
  rw [lookup_append, lookup_append, lookup_cons]
  by_cases hne : name = other
  · subst hne
    rw [lookup_append] at habsent
    have hfront : lookup name front = 0 := by
      by_contra hf
      rw [if_neg hf] at habsent
      exact hf habsent
    rw [if_pos hfront] at habsent
    have hholds : u.holds name = decide (u.ino ≠ 0) := by
      simp [Slot.holds, Slot.named, hnamed, hlen]
    rw [if_pos hfront, if_pos rfl, hholds, habsent]
    by_cases hzero : u.ino = 0 <;> simp [hzero]
  · rw [if_neg hne, Slot.holds_of_ne hnamed hne, if_neg Bool.false_ne_true]

/-! ## Removing a name -/

def Slot.clear (t : Slot) : Slot := { t with ino := 0, ino_lt := by decide }

def Slot.unlinked (name : List UInt8) (t : Slot) : Slot := if t.named name then t.clear else t

theorem Slot.unlinked_of_named (h : t.named name = true) : t.unlinked name = t.clear := if_pos h

theorem Slot.unlinked_of_not (h : t.named name = false) : t.unlinked name = t := by
  rw [unlinked, h, if_neg Bool.false_ne_true]

theorem lookup_unlinked : lookup name (slots.map (Slot.unlinked other)) =
    if name = other then 0 else lookup name slots := by
  induction slots with
  | nil => simp
  | cons t slots ih =>
    rw [map_cons, lookup_cons, lookup_cons, ih]
    by_cases hother : t.named other = true
    · have hname : t.name = other := by
        simp only [Slot.named, Bool.and_eq_true, decide_eq_true_eq] at hother
        exact hother.2
      rw [Slot.unlinked_of_named hother, Slot.holds_of_free rfl, if_neg Bool.false_ne_true]
      by_cases hne : name = other
      · rw [if_pos hne, if_pos hne]
      · rw [if_neg hne, if_neg hne, Slot.holds_of_ne hname hne, if_neg Bool.false_ne_true]
    · rw [Slot.unlinked_of_not (Bool.eq_false_iff.mpr hother)]
      by_cases hne : name = other
      · subst hne
        have hholds : t.holds name = false := by
          rw [Slot.holds, Bool.eq_false_iff.mpr hother, Bool.and_false]
        rw [if_pos rfl, if_pos rfl, hholds, if_neg Bool.false_ne_true]
      · rw [if_neg hne, if_neg hne]

/-! ## Scanning and changing slots

What the loops over the entries of a directory do, and what is stored for a new entry, in terms of
the slots. -/

open Slot

variable {pre post buf head rest : List UInt8} {ino fileType size need limit base r i : ℕ}

theorem recLenFor_spec (n : ℕ) :
    12 ≤ recLenFor n ∧ direntSize + n ≤ recLenFor n ∧ 4 ∣ recLenFor n := by
  simp only [recLenFor, direntSize]
  refine ⟨le_max_left _ _, ?_, ?_⟩
  · omega
  · rcases le_total 12 ((8 + n + 3) / 4 * 4) with h | h
    · rw [max_eq_right h]
      exact dvd_mul_left 4 _
    · rw [max_eq_left h]
      decide

/-! ## Lookup -/

theorem lookupLoop_eq (hname : name.length < 2 ^ 8) (slots : List Slot) : ∀ pos fuel,
    At buf size pos slots → slots.length ≤ fuel →
    lookupLoop buf name size fuel pos = lookup name slots := by
  induction slots with
  | nil =>
    intro pos fuel hat _
    cases fuel with
    | zero => rfl
    | succ fuel => exact if_pos (by simp [hat.size_eq])
  | cons t slots ih =>
    intro pos fuel hat hfuel
    obtain ⟨fuel, rfl, hle⟩ := exists_fuel hfuel
    obtain ⟨hlt, hnext, pre, post, hbuf, rfl⟩ := hat.split
    have hrest := ih _ fuel hnext hle
    rw [lookupLoop, if_neg (not_le.mpr hlt), hbuf, deRecLen_eq, if_neg t.recLen_pos.ne', deInode_eq,
      deMatches_eq hname, ← hbuf, hrest, lookup_cons]
    rfl

/-! ## Removing a name -/

theorem patch_ino (hi : i < 2 ^ 32) : patch pre.length (toBytes 4 i) (pre ++ (t.bytes ++ post)) =
    pre ++ (({ t with ino := i, ino_lt := hi } : Slot).bytes ++ post) := by
  simp only [Slot.bytes, header, append_assoc]
  exact patch_append rfl (by simp)

theorem unlinkLoop_eq (hname : name.length < 2 ^ 8) (slots : List Slot) :
    ∀ pre fuel buf found modified, buf = pre ++ (slotBytes slots ++ post) →
    size = pre.length + (slotBytes slots).length → slots.length ≤ fuel →
    unlinkLoop name size fuel pre.length buf found modified =
      (pre ++ (slotBytes (slots.map (unlinked name)) ++ post),
        found || slots.any (named name), modified || slots.any (holds name)) := by
  induction slots with
  | nil =>
    intro pre fuel buf found modified hbuf hsize _
    have hend : size ≤ pre.length := by simp [hsize]
    subst hbuf
    cases fuel with
    | zero => simp [unlinkLoop]
    | succ fuel => simp [unlinkLoop, hend]
  | cons t slots ih =>
    intro pre fuel buf found modified hbuf hsize hfuel
    obtain ⟨fuel, rfl, hle⟩ := exists_fuel hfuel
    have hpos := t.recLen_pos
    rw [slotBytes_cons, append_assoc] at hbuf
    rw [slotBytes_cons, length_append, Slot.length_bytes] at hsize
    -- the loop goes on behind a slot `u` in the place of `t`
    have hrest : ∀ (u : Slot) found modified, u.recLen = t.recLen →
        unlinkLoop name size fuel (pre.length + t.recLen)
          (pre ++ (u.bytes ++ (slotBytes slots ++ post)))
          found modified =
        (pre ++ (slotBytes (u :: slots.map (unlinked name)) ++ post),
          found || slots.any (named name), modified || slots.any (holds name)) := by
      intro u found modified hu
      have hlen : pre.length + t.recLen = (pre ++ u.bytes).length := by simp [hu]
      rw [hlen, ih (pre ++ u.bytes) fuel _ found modified (append_assoc _ _ _).symm
        (by rw [← hlen]; omega) hle]
      simp only [slotBytes_cons, append_assoc]
    rw [unlinkLoop, if_neg (by omega), hbuf, deRecLen_eq, if_neg hpos.ne', deInode_eq,
      deMatches_eq hname, map_cons, any_cons, any_cons]
    cases hnamed : t.named name with
    | false =>
      have hholds : t.holds name = false := by simp [holds, hnamed]
      rw [if_neg Bool.false_ne_true, hrest t _ _ rfl, unlinked_of_not hnamed, hholds,
        Bool.false_or, Bool.false_or]
    | true =>
      have hholds : t.holds name = decide (t.ino ≠ 0) := by simp [holds, hnamed]
      rw [if_pos rfl, unlinked_of_named hnamed, hholds, Bool.true_or, Bool.or_true]
      by_cases hzero : t.ino = 0
      · have hclear : t.clear = t := by
          cases t
          subst hzero
          rfl
        rw [if_neg (not_not.mpr hzero), hrest t _ _ rfl, hclear]
        simp [hzero]
      · rw [if_pos hzero, patch_ino (by decide)]
        refine (hrest t.clear true true rfl).trans ?_
        simp [hzero]

/-! ## Looking for space -/

theorem scanBlock_cases (need : ℕ) (hlimit : base + size ≤ limit) (slots : List Slot) :
    ∀ pos fuel lastOff lastOffset, At buf size pos slots → slots.length ≤ fuel →
    (∃ front t back, slots = front ++ t :: back ∧ t.ino = 0 ∧ need ≤ t.recLen ∧
      (∀ u ∈ front, u.ino = 0 → u.recLen < need) ∧
      scanBlock buf size need limit fuel pos (base + pos) lastOff lastOffset =
        .slot (pos + (slotBytes front).length)) ∨
    (slots = [] ∧ scanBlock buf size need limit fuel pos (base + pos) lastOff lastOffset =
      .done (base + size) lastOff lastOffset) ∨
    ∃ front t, slots = front ++ [t] ∧ (∀ u ∈ slots, u.ino = 0 → u.recLen < need) ∧
      scanBlock buf size need limit fuel pos (base + pos) lastOff lastOffset =
        .done (base + size) (pos + (slotBytes front).length)
          (base + (pos + (slotBytes front).length)) := by
  induction slots with
  | nil =>
    intro pos fuel lastOff lastOffset hat _
    have hend : size = pos := by simpa using hat.size_eq
    cases fuel with
    | zero | succ fuel => simp [scanBlock, hend]
  | cons t slots ih =>
    intro pos fuel lastOff lastOffset hat hfuel
    obtain ⟨fuel, rfl, hle⟩ := exists_fuel hfuel
    obtain ⟨hlt, hnext, pre, post, hbuf, rfl⟩ := hat.split
    have hgo : ¬ (size ≤ pre.length ∨ limit ≤ base + pre.length) := by omega
    rw [scanBlock, if_neg hgo]
    rw [show deRecLen buf pre.length = t.recLen from hbuf ▸ deRecLen_eq,
      show deInode buf pre.length = t.ino from hbuf ▸ deInode_eq, if_neg t.recLen_pos.ne']
    by_cases hfree : t.ino = 0 ∧ need ≤ t.recLen
    · rw [if_pos hfree]
      exact Or.inl ⟨[], t, slots, rfl, hfree.1, hfree.2, by simp, by simp⟩
    have hlarge : t.ino = 0 → t.recLen < need :=
      fun hino => Nat.not_le.mp fun hneed => hfree ⟨hino, hneed⟩
    rw [if_neg hfree, Nat.add_assoc base]
    rcases ih _ fuel pre.length (base + pre.length) hnext hle with
      ⟨front, u, back, rfl, hino, hneed, hsmall, heq⟩ | ⟨rfl, heq⟩ | ⟨front, u, rfl, hsmall, heq⟩
    · refine Or.inl ⟨t :: front, u, back, rfl, hino, hneed,
        forall_mem_cons.mpr ⟨hlarge, hsmall⟩, ?_⟩
      rw [heq, slotBytes_cons, length_append, Slot.length_bytes, Nat.add_assoc]
    · refine Or.inr (Or.inr ⟨[], t, rfl, forall_mem_singleton.mpr hlarge, ?_⟩)
      simpa using heq
    · refine Or.inr (Or.inr ⟨t :: front, u, rfl, forall_mem_cons.mpr ⟨hlarge, hsmall⟩, ?_⟩)
      rw [heq, slotBytes_cons, length_append, Slot.length_bytes, Nat.add_assoc]

/-! ## Storing an entry -/

/-- An entry that can be stored. -/
structure NewEntry (ino : ℕ) (name : List UInt8) (fileType : ℕ) : Prop where
  ino_lt : ino < 2 ^ 32
  name_lt : name.length < 2 ^ 8
  type_lt : fileType < 2 ^ 8

/-- The entry in a space of bytes behind its header. -/
def Slot.make (h : NewEntry ino name fileType) (rest : List UInt8)
    (hfits : name.length ≤ rest.length)
    (haligned : 4 ∣ rest.length) (hshort : direntSize + rest.length < 2 ^ 16) : Slot where
  ino := ino
  nameLen := name.length
  fileType := fileType
  body := name ++ rest.drop name.length
  ino_lt := h.ino_lt
  nameLen_lt := h.name_lt
  type_lt := h.type_lt
  fits := by simp
  aligned := by simpa [Nat.add_sub_cancel' hfits] using haligned
  short := by simpa [Nat.add_sub_cancel' hfits] using hshort

/-- An entry with a shorter record. -/
def Slot.cut (t : Slot) (n : ℕ) (hfits : t.nameLen ≤ n) (haligned : 4 ∣ n)
    (hle : n ≤ t.body.length) : Slot where
  ino := t.ino
  nameLen := t.nameLen
  fileType := t.fileType
  body := t.body.take n
  ino_lt := t.ino_lt
  nameLen_lt := t.nameLen_lt
  type_lt := t.type_lt
  fits := by rwa [length_take_of_le hle]
  aligned := by rwa [length_take_of_le hle]
  short := by
    have h := t.short
    rw [length_take_of_le hle]
    omega

section

variable {h : NewEntry ino name fileType} {hfits : name.length ≤ rest.length}
  {haligned : 4 ∣ rest.length} {hshort : direntSize + rest.length < 2 ^ 16}

@[simp] theorem Slot.make_nameLen :
    (Slot.make h rest hfits haligned hshort).nameLen = name.length := rfl

@[simp] theorem Slot.make_name : (Slot.make h rest hfits haligned hshort).name = name := by
  simp [Slot.name, Slot.make]

@[simp] theorem Slot.make_recLen :
    (Slot.make h rest hfits haligned hshort).recLen = direntSize + rest.length := by
  simp [recLen, Slot.make, Nat.add_sub_cancel' hfits]

theorem Slot.make_bytes : (Slot.make h rest hfits haligned hshort).bytes =
    header ino (direntSize + rest.length) name.length fileType ++
      (name ++ rest.drop name.length) := by
  rw [Slot.bytes, make_recLen]
  rfl

end

section

variable {n : ℕ} {hfits : t.nameLen ≤ n} {haligned : 4 ∣ n} {hle : n ≤ t.body.length}

@[simp] theorem Slot.cut_recLen : (t.cut n hfits haligned hle).recLen = direntSize + n := by
  simp [recLen, Slot.cut, hle]

theorem Slot.cut_bytes : (t.cut n hfits haligned hle).bytes =
    header t.ino (direntSize + n) t.nameLen t.fileType ++ t.body.take n := by
  rw [Slot.bytes, cut_recLen]
  rfl

theorem Slot.cut_holds : (t.cut n hfits haligned hle).holds name = t.holds name := by
  have hname : (t.cut n hfits haligned hle).name = t.name := by
    simp [Slot.name, Slot.cut, take_take, Nat.min_eq_left hfits]
  rw [holds, holds, named, named, hname]
  rfl

end

/-- The inode, the length of the name and the type in a header. -/
def stamp (ino n type : ℕ) (head : List UInt8) : List UInt8 :=
  patch 7 (toBytes 1 type) (patch 6 (toBytes 1 n) (patch 0 (toBytes 4 ino) head))

theorem header_reuse {n f i' n' f' : ℕ} : stamp i' n' f' (header i r n f) = header i' r n' f' := rfl

section Header

variable {n f : ℕ} (hhead : head.length = direntSize)

include hhead

theorem length_stamp : (stamp ino n f head).length = direntSize := by
  match head, hhead with
  | [_, _, _, _, _, _, _, _], _ => rfl

theorem storeEntry_eq :
    storeEntry pre.length ino name fileType (pre ++ (head ++ rest)) =
      pre ++ (stamp ino name.length fileType head ++ (name ++ rest.drop name.length)) := by
  have hino : patch pre.length (toBytes 4 ino) (pre ++ (head ++ rest)) =
      pre ++ (patch 0 (toBytes 4 ino) head ++ rest) :=
    patch_within (k := 0) (by simp [hhead, direntSize])
  rw [storeEntry, hino, patch_within (by simp [hhead, direntSize]),
    patch_within (by simp [hhead, direntSize]), patch_add rfl]
  refine congrArg (pre ++ ·) ?_
  exact (patch_add (length_stamp hhead) 0).trans (congrArg _ patch_zero)

theorem storeRecLen_eq :
    storeRecLen pre.length r (pre ++ (head ++ rest)) = pre ++ (patch 4 (toBytes 2 r) head ++ rest) :=
  patch_within (by simp [hhead, direntSize])

theorem header_new : stamp i n f (patch 4 (toBytes 2 r) head) = header i r n f := by
  match head, hhead with
  | [_, _, _, _, _, _, _, _], _ => rfl

theorem header_single : patch 4 (toBytes 2 r) (stamp i n f head) = header i r n f := by
  match head, hhead with
  | [_, _, _, _, _, _, _, _], _ => rfl

theorem storeRecLen_storeEntry :
    storeRecLen 0 r (storeEntry 0 ino name fileType (head ++ rest)) =
      header ino r name.length fileType ++ (name ++ rest.drop name.length) := by
  have hstore : storeEntry 0 ino name fileType (head ++ rest) =
      stamp ino name.length fileType head ++ (name ++ rest.drop name.length) :=
    @storeEntry_eq name [] head rest ino fileType hhead
  rw [hstore, ← header_single hhead]
  exact @storeRecLen_eq [] _ _ r (length_stamp hhead)

end Header

theorem storeEntry_reuse (pre post : List UInt8) (h : NewEntry ino name fileType)
    (hneed : recLenFor name.length ≤ t.recLen) :
    ∃ u : Slot, u.IsFor ino name ∧ u.recLen = t.recLen ∧
      storeEntry pre.length ino name fileType (pre ++ (t.bytes ++ post)) = pre ++
        (u.bytes ++ post) := by
  have hfits : name.length ≤ t.body.length := by
    have hrec := (recLenFor_spec name.length).2.1
    rw [recLen] at hneed
    omega
  refine ⟨Slot.make h t.body hfits t.aligned t.short, ⟨rfl, rfl, Slot.make_name⟩, make_recLen, ?_⟩
  rw [Slot.bytes, append_assoc, storeEntry_eq (length_header _ _ _ _), header_reuse,
    make_bytes, append_assoc, append_assoc, drop_append_of_le_length hfits]
  rfl

theorem storeEntry_split (pre : List UInt8) (h : NewEntry ino name fileType)
    (hactual : recLenFor t.nameLen ≤ t.recLen)
    (hneed : recLenFor name.length ≤ t.recLen - recLenFor t.nameLen) :
    ∃ t' u : Slot, u.IsFor ino name ∧ (∀ other, t'.holds other = t.holds other) ∧ t'.ino = t.ino ∧
      t'.recLen + u.recLen = t.recLen ∧
      storeEntry (pre.length + recLenFor t.nameLen) ino name fileType
        (storeRecLen (pre.length + recLenFor t.nameLen) (t.recLen - recLenFor t.nameLen)
          (storeRecLen pre.length (recLenFor t.nameLen) (pre ++ t.bytes))) =
        pre ++ (t'.bytes ++ u.bytes) := by
  obtain ⟨hmin, hlen, hdvd⟩ := recLenFor_spec t.nameLen
  obtain ⟨hmin', hlen', hdvd'⟩ := recLenFor_spec name.length
  have haligned := t.aligned
  have hshort := t.short
  have hrec : t.recLen = direntSize + t.body.length := rfl
  simp only [direntSize] at hlen hlen' hshort hrec
  obtain ⟨n, hn⟩ : ∃ n, recLenFor t.nameLen = direntSize + n :=
    ⟨recLenFor t.nameLen - 8, by simp only [direntSize]; omega⟩
  simp only [direntSize] at hn
  -- the body of the last entry: what it keeps, the new header and the rest
  have hle : n ≤ t.body.length := by omega
  have hdrop : (t.body.drop n).length = t.recLen - recLenFor t.nameLen := by
    rw [length_drop]
    omega
  set head := (t.body.drop n).take direntSize
  set rest := (t.body.drop n).drop direntSize with hrestDef
  have hhead : head.length = direntSize := by
    rw [length_take_of_le]
    simp only [direntSize]
    omega
  have hrest : direntSize + rest.length = t.recLen - recLenFor t.nameLen := by
    rw [hrestDef, length_drop, hdrop]
    simp only [direntSize]
    omega
  simp only [direntSize] at hrest
  have hbody : t.body = t.body.take n ++ (head ++ rest) := by
    rw [take_append_drop, take_append_drop]
  have hpre : (pre ++ (header t.ino (direntSize + n) t.nameLen t.fileType ++ t.body.take n)).length =
      pre.length + recLenFor t.nameLen := by
    simp [hn, hle, direntSize]
  refine ⟨t.cut n (by omega) (by omega) hle,
    Slot.make h rest (by omega) (by omega) (by simp only [direntSize]; omega),
    ⟨rfl, rfl, Slot.make_name⟩, fun _ => cut_holds, rfl, ?_, ?_⟩
  · rw [cut_recLen, make_recLen]
    simp only [direntSize]
    omega
  · have hfirst : storeRecLen pre.length (recLenFor t.nameLen) (pre ++ t.bytes) =
        (pre ++ (header t.ino (direntSize + n) t.nameLen t.fileType ++ t.body.take n)) ++
          (head ++ rest) := by
      rw [Slot.bytes, storeRecLen_eq (length_header _ _ _ _), hn]
      nth_rewrite 1 [hbody]
      simp only [append_assoc]
      rfl
    have hheader : direntSize + rest.length = t.recLen - recLenFor t.nameLen := hrest
    rw [hfirst, ← hpre, storeRecLen_eq hhead, storeEntry_eq, header_new hhead, make_bytes, cut_bytes,
      hheader]
    · simp only [append_assoc]
    · rw [length_patch (by simp [hhead, direntSize]), hhead]

theorem singleEntry_eq (sbi : SbInfo) (h : NewEntry ino name fileType) :
    ∃ u : Slot, u.IsFor ino name ∧ u.recLen = sbi.blockSize ∧
      singleEntry sbi ino name fileType = u.bytes := by
  have hmin := sbi.le_blockSize
  have hmax := sbi.blockSize_le
  have hdvd := sbi.four_dvd_blockSize
  have hname := h.name_lt
  obtain ⟨n, hn⟩ : ∃ n, sbi.blockSize = direntSize + n :=
    ⟨sbi.blockSize - 8, by simp only [direntSize]; omega⟩
  have hlen : (List.replicate n (0 : UInt8)).length = n := length_replicate
  have hrec : direntSize + (List.replicate n (0 : UInt8)).length = sbi.blockSize := by rw [hlen, hn]
  simp only [direntSize] at hn
  refine ⟨Slot.make h (List.replicate n 0) (by omega) (by omega) (by omega),
    ⟨rfl, rfl, Slot.make_name⟩, make_recLen.trans hrec, ?_⟩
  rw [singleEntry, make_bytes, hrec]
  nth_rewrite 2 [hn]
  rw [← replicate_append_replicate]
  exact storeRecLen_storeEntry length_replicate

end NoobKernel.Ext4
