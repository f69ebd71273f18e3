import NoobKernel.Model.Lz4

/-! # Safety of LZ4 decompression -/

namespace NoobKernel.Lz4

open Library

section Safe

variable {α β : Type} {x : Except Exit α} {f : α → Except Exit β} {P : α → Prop} {Q : β → Prop}

/-- The code returns `-1` or goes on with a value that satisfies `P`. -/
def Safe (x : Except Exit α) (P : α → Prop) : Prop := x = .error .failed ∨ ∃ a, x = .ok a ∧ P a

theorem safe_failed : Safe (.error .failed) P := Or.inl rfl

theorem safe_ok {a : α} (h : P a) : Safe (.ok a) P := Or.inr ⟨a, rfl, h⟩

theorem Safe.bind (h : Safe x P) (hf : ∀ a, P a → Safe (f a) Q) : Safe (x >>= f) Q := by
  rcases h with rfl | ⟨a, rfl, ha⟩
  · exact safe_failed
  · exact hf a ha

end Safe

variable {c : Buffers} {i offset len : ℕ} {out : List UInt8}

theorem readByte_safe (h : i < c.bytes.length) : Safe (readByte c i) (· < 256) := by
  simp only [readByte, List.getElem?_eq_getElem h]
  exact safe_ok (UInt8.toNat_lt _)

/-- A length is bounded by the number of bytes that it takes. -/
theorem readLength_safe (fuel : ℕ) : ∀ i len, c.bytes.length < i + fuel → i ≤ c.bytes.length →
    Safe (readLength c fuel i len)
      (fun r => i ≤ r.2 ∧ r.2 ≤ c.bytes.length ∧ r.1 ≤ len + 255 * (r.2 - i)) := by
  induction fuel with
  | zero => omega
  | succ fuel ih =>
    intro i len hfuel hi
    unfold readLength
    split
    · exact safe_failed
    refine (readByte_safe (by omega)).bind (fun s hs => ?_)
    split
    · refine (ih (i + 1) (len + s) (by omega) (by omega)).imp_right ?_
      rintro ⟨r, hr, hle, hlen, hbound⟩
      exact ⟨r, hr, by omega, hlen, by omega⟩
    · exact safe_ok ⟨by omega, by dsimp only; omega, by dsimp only; omega⟩

theorem tokenLength_safe {half : ℕ} (hhalf : half ≤ 15) (hi : i ≤ c.bytes.length) :
    Safe (tokenLength c half i)
      (fun r => i ≤ r.2 ∧ r.2 ≤ c.bytes.length ∧ r.1 ≤ 15 + 255 * c.bytes.length) := by
  unfold tokenLength
  split
  · refine (readLength_safe _ i half (by omega) hi).imp_right ?_
    rintro ⟨r, hr, hle, hlen, hbound⟩
    exact ⟨r, hr, hle, hlen, by omega⟩
  · exact safe_ok ⟨le_rfl, hi, by dsimp only; omega⟩

/-! ## Copies -/

theorem copyLiterals_safe (hsrc : i + len ≤ c.bytes.length)
    (hdst : out.length + len ≤ c.dstCapacity) :
    Safe (copyLiterals c i len out) (·.length ≤ c.dstCapacity) := by
  rw [copyLiterals, if_pos ⟨hsrc, hdst⟩]
  exact safe_ok (by simp; omega)

theorem copyWithin_safe (hoff : offset ≤ out.length) (hlen : len ≤ offset)
    (hdst : out.length + len ≤ c.dstCapacity) :
    Safe (copyWithin c offset len out) (·.length = out.length + len) := by
  rw [copyWithin, if_pos ⟨hoff, hlen, hdst⟩]
  exact safe_ok (by simp; omega)

theorem copyOverlap_safe (hpos : 0 < offset) : ∀ remaining out, offset < remaining →
    offset ≤ out.length → out.length + remaining ≤ c.dstCapacity →
    Safe (copyOverlap c offset remaining out)
      (fun r => r.1 ≤ offset ∧ offset ≤ r.2.length ∧ r.2.length + r.1 = out.length + remaining) := by
  intro remaining
  induction remaining with
  | zero => omega
  | succ remaining ih =>
    intro out hlt hoff hdst
    refine (copyWithin_safe hoff hpos (by omega)).bind (fun out' hlen => ?_)
    split
    · refine (ih out' (by omega) (by omega) (by omega)).imp_right ?_
      rintro ⟨r, hr, hle, hoff', hsum⟩
      exact ⟨r, hr, hle, hoff', by omega⟩
    · exact safe_ok ⟨by dsimp only; omega, by dsimp only; omega, by dsimp only; omega⟩

theorem copyMatch_safe (hpos : 0 < offset) (hoff : offset ≤ out.length)
    (hdst : out.length + len ≤ c.dstCapacity) :
    Safe (copyMatch c offset len out) (·.length ≤ c.dstCapacity) := by
  unfold copyMatch
  split
  next hlt =>
    refine (copyOverlap_safe hpos len out hlt hoff hdst).bind (fun r hr => ?_)
    refine (copyWithin_safe hr.2.1 hr.1 (by omega)).imp_right ?_
    rintro ⟨out', hout, hlen⟩
    exact ⟨out', hout, by omega⟩
  · refine (copyWithin_safe hoff (by omega) hdst).imp_right ?_
    rintro ⟨out', hout, hlen⟩
    exact ⟨out', hout, by omega⟩

/-! ## The loop -/

/-- The buffers lie in the address space, the destination above the first 64 KiB of it, and neither
of them at its very end. -/
structure Placed (c : Buffers) : Prop where
  size : c.bytes.length < 2 ^ 31
  capacity : c.dstCapacity < 2 ^ 31
  src : c.src + c.bytes.length + 2 ^ 40 ≤ addressSpace
  low : 2 ^ 16 ≤ c.dst
  dst : c.dst + c.dstCapacity + 2 ^ 40 ≤ addressSpace

theorem le_of_not_passes {base size pos : ℕ} (h : ¬ passes base size pos len)
    (hend : base + size + 2 ^ 40 ≤ addressSpace) (hpos : pos ≤ size) (hlen : len < 2 ^ 40) :
    pos + len ≤ size := by
  unfold passes at h
  rw [Nat.mod_eq_of_lt (by omega), Nat.mod_eq_of_lt (by omega)] at h
  omega

theorem decompressLoop_safe (hc : Placed c) (fuel : ℕ) : ∀ i out, c.bytes.length < i + fuel →
    i ≤ c.bytes.length → out.length ≤ c.dstCapacity →
    Safe (decompressLoop c fuel i out) (·.length ≤ c.dstCapacity) := by
  obtain ⟨hsize, hcap, hsrc, hlow, hdst⟩ := hc
  induction fuel with
  | zero => omega
  | succ fuel ih =>
    intro i out hfuel hi hout
    unfold decompressLoop
    split
    · exact safe_ok hout
    refine (readByte_safe (by omega)).bind (fun token htoken => ?_)
    refine (tokenLength_safe (by omega) (by omega)).bind ?_
    rintro ⟨literalLen, j⟩ ⟨hij, hj, hlit⟩
    dsimp only at hij hj hlit ⊢
    split
    · exact safe_failed
    next hpass =>
    rw [not_or] at hpass
    have hread := le_of_not_passes hpass.1 hsrc hj (by omega)
    have hwrite := le_of_not_passes hpass.2 hdst hout (by omega)
    refine (copyLiterals_safe hread hwrite).bind (fun out1 hout1 => ?_)
    split
    · exact safe_ok hout1
    split
    · exact safe_failed
    refine (readByte_safe (by omega)).bind (fun low hlow' => ?_)
    refine (readByte_safe (by omega)).bind (fun high hhigh => ?_)
    split
    · exact safe_failed
    next hzero =>
    refine (tokenLength_safe (by omega) (by omega)).bind ?_
    rintro ⟨len, k⟩ ⟨hjk, hk, hlen⟩
    dsimp only at hjk hk hlen ⊢
    split
    · exact safe_failed
    next hpass' =>
    rw [not_or] at hpass'
    have hwrite' := le_of_not_passes hpass'.1 hdst hout1 (show len + 4 < 2 ^ 40 by omega)
    have hoff : low + 256 * high ≤ out1.length := by
      have hsub : c.dst + out1.length + addressSpace - (low + 256 * high) =
          c.dst + out1.length - (low + 256 * high) + addressSpace := by omega
      rw [hsub, Nat.add_mod_right, Nat.mod_eq_of_lt (by omega)] at hpass'
      omega
    refine (copyMatch_safe (by omega) hoff hwrite').bind (fun out2 hout2 => ?_)
    exact ih k out2 (by omega) hk hout2

/-- Decompression returns, touches nothing that it must not, and returns `-1` or the number of bytes
that it has produced. -/
theorem lz4Decompress_safe (hc : Placed c) : ∃ r out, lz4Decompress c = .ok (r, out) ∧
    (r = -1 ∨ r = out.length ∧ out.length ≤ c.dstCapacity) := by
  unfold lz4Decompress
  rcases decompressLoop_safe hc (c.bytes.length + 1) 0 [] (by omega) (by omega) (by simp) with
    hfail | ⟨out, hok, hle⟩
  · rw [hfail]
    exact ⟨-1, [], rfl, Or.inl rfl⟩
  · rw [hok]
    exact ⟨out.length, out, rfl, Or.inr ⟨rfl, hle⟩⟩

/-- One literal and four more bytes that repeat it. -/
def repeated : Buffers := ⟨0, [16, 65, 1, 0], 2 ^ 16, 8⟩

theorem lz4Decompress_safe_repeated :
    Placed repeated ∧ ∃ r out, lz4Decompress repeated = .ok (r, out) ∧
    (r = -1 ∨ r = out.length ∧ out.length ≤ repeated.dstCapacity) := by
  have hc : Placed repeated := ⟨by decide, by decide, by decide, by decide, by decide⟩
  exact ⟨hc, lz4Decompress_safe hc⟩

/-- At the end of the address space the sum of a pointer and a length starts again at zero, and 25
bytes are written to a buffer of 10. -/
theorem write_past_top : ∃ c : Buffers, c.bytes.length < 2 ^ 31 ∧ 2 ^ 16 ≤ c.dst ∧
    c.dst + c.dstCapacity < addressSpace ∧ lz4Decompress c = .error .wild :=
  ⟨⟨0, 240 :: 10 :: List.replicate 25 0, 2 ^ 64 - 20, 10⟩, by decide⟩

end NoobKernel.Lz4
