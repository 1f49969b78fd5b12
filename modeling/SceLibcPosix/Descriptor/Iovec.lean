import SceLibcPosix.Descriptor.Vectored

namespace SceLibcPosix.Descriptor

open Errno VitaError ScatterGather

structure Iovec where
  iovBase : ℕ
  iovLen : BitVec 32
deriving DecidableEq, Repr

def buffers (vector : List Iovec) : List (ℕ × ℕ) :=
  vector.map fun v ↦ (v.iovBase, v.iovLen.toNat)

/-- The first loop of the helpers in the arithmetic of `size_t`, where sums and differences wrap
around. -/
def sumFrom (bytes : BitVec 32) : List Iovec → Option (BitVec 32)
  | [] => some bytes
  | v :: vector =>
    if BitVec.ofNat 32 SSIZE_MAX - bytes < v.iovLen then none
    else sumFrom (bytes + v.iovLen) vector

/-- What the copy loops do to a memory with buffers of `bytes` bytes in all. -/
structure Copies (mem : ℕ → UInt8) (iov : List (ℕ × ℕ)) (bytes : ℕ) : Prop where
  gathered : gather mem bytes iov = contents mem iov
  scattered : ∀ buffer : List UInt8, buffer.length ≤ bytes →
    contents (scatter mem iov buffer) iov = buffer ++ (contents mem iov).drop buffer.length
  untouched : ∀ buffer : List UInt8, ∀ a ∉ (addresses iov).take buffer.length,
    scatter mem iov buffer a = mem a
  inverse : ∀ buffer : List UInt8, buffer.length = bytes →
    gather (scatter mem iov buffer) bytes iov = buffer

section Sums

variable {bytes b : BitVec 32} {vector p q : List Iovec}

theorem sumFrom_append :
    sumFrom bytes (p ++ q) = (sumFrom bytes p).bind fun b ↦ sumFrom b q := by
  induction p generalizing bytes with
  | nil => rfl
  | cons v p ih =>
    rw [List.cons_append, sumFrom, sumFrom, ih]
    split_ifs <;> rfl

theorem left_lt_iff {len : BitVec 32} (h : bytes.toNat ≤ SSIZE_MAX) :
    BitVec.ofNat 32 SSIZE_MAX - bytes < len ↔ SSIZE_MAX - bytes.toNat < len.toNat := by
  have hmax : (BitVec.ofNat 32 SSIZE_MAX).toNat = SSIZE_MAX := rfl
  rw [BitVec.lt_def, BitVec.toNat_sub_of_le (BitVec.le_def.mpr (h.trans_eq hmax.symm)), hmax]

theorem sumFrom_toNat (h : bytes.toNat ≤ SSIZE_MAX) :
    (sumFrom bytes vector).map BitVec.toNat = totalFrom bytes.toNat (buffers vector) := by
  induction vector generalizing bytes with
  | nil => rfl
  | cons v vector ih =>
    rw [buffers, List.map_cons, sumFrom, totalFrom]
    by_cases hv : SSIZE_MAX - bytes.toNat < v.iovLen.toNat
    · rw [if_pos ((left_lt_iff h).mpr hv), if_pos hv]
      rfl
    · have hfits : bytes.toNat + v.iovLen.toNat ≤ SSIZE_MAX := by omega
      have hadd : (bytes + v.iovLen).toNat = bytes.toNat + v.iovLen.toNat :=
        BitVec.toNat_add_of_lt (hfits.trans_lt (by decide))
      rw [if_neg fun h' ↦ hv ((left_lt_iff h).mp h'), if_neg hv, ih (hadd.trans_le hfits), hadd]
      rfl

theorem sumFrom_zero_toNat (vector : List Iovec) : (sumFrom 0 vector).map BitVec.toNat =
    if total (buffers vector) ≤ SSIZE_MAX then some (total (buffers vector)) else none := by
  have hzero : (0 : BitVec 32).toNat = 0 := rfl
  rw [sumFrom_toNat (Nat.zero_le _), hzero, totalFrom_eq (Nat.zero_le _), Nat.zero_add]

theorem toNat_of_sumFrom (h : sumFrom 0 p = some b) :
    b.toNat = total (buffers p) ∧ b.toNat ≤ SSIZE_MAX := by
  have hsum := sumFrom_zero_toNat p
  rw [h] at hsum
  by_cases htotal : total (buffers p) ≤ SSIZE_MAX
  · rw [if_pos htotal] at hsum
    have hb : b.toNat = total (buffers p) := Option.some.inj hsum
    exact ⟨hb, hb.trans_le htotal⟩
  · rw [if_neg htotal] at hsum
    cases hsum

theorem exists_sumFrom (h : total (buffers vector) ≤ SSIZE_MAX) :
    ∃ b, sumFrom 0 vector = some b := by
  have hsum := sumFrom_zero_toNat vector
  rw [if_pos h] at hsum
  obtain ⟨b, hb, -⟩ := Option.map_eq_some_iff.mp hsum
  exact ⟨b, hb⟩

theorem sumFrom_eq_none (h : SSIZE_MAX < total (buffers vector)) : sumFrom 0 vector = none := by
  have hsum := sumFrom_zero_toNat vector
  rw [if_neg (Nat.not_le.mpr h)] at hsum
  exact Option.map_eq_none_iff.mp hsum

end Sums

theorem VectorCall.helper_too_long {σ : Type} {K : Kernel σ} {net : NetErrno → ℤ} {r fd : ℤ}
    {alloc : Bool} {s : State σ} {v : VectorCall} {iov : List (ℕ × ℕ)}
    (h : SSIZE_MAX < total iov) : v.helper K net r alloc s fd iov = (-1, s) := by
  rw [VectorCall.helper, totalFrom_eq (Nat.zero_le _), Nat.zero_add, if_neg (Nat.not_le.mpr h)]

theorem copies_of_apart {mem : ℕ → UInt8} {iov : List (ℕ × ℕ)} (h : Apart iov) :
    Copies mem iov (total iov) where
  gathered := gather_eq
  scattered buffer hlen := by rw [scatter_eq, h.contents_layOut hlen]
  untouched buffer a ha := by rw [scatter_eq, layOut_of_notMem ha]
  inverse buffer hlen := by rw [gather_eq, scatter_eq, h.contents_layOut_full hlen]

/-- The copy loops are inverse to each other where the first loop lets them run; where it does not,
nothing happens, and its sum is exact wherever it gets to. -/
theorem scatter_gather_inverse (vector : List Iovec) (mem : ℕ → UInt8) :
    (Apart (buffers vector) → total (buffers vector) ≤ SSIZE_MAX →
      ∃ bytes, sumFrom 0 vector = some bytes ∧ bytes.toNat = total (buffers vector) ∧
        Copies mem (buffers vector) bytes.toNat) ∧
    (SSIZE_MAX < total (buffers vector) → sumFrom 0 vector = none ∧
      ∀ (σ : Type) (K : Kernel σ) net r alloc s fd (v : VectorCall),
        v.helper K net r alloc s fd (buffers vector) = (-1, s)) ∧
    ∀ p q bytes, vector = p ++ q → sumFrom 0 p = some bytes →
      sumFrom 0 vector = sumFrom bytes q ∧
        bytes.toNat = total (buffers p) ∧ bytes.toNat ≤ SSIZE_MAX := by
  refine ⟨fun hapart htotal ↦ ?_, fun htotal ↦ ?_, fun p q bytes hvector hp ↦ ?_⟩
  · obtain ⟨bytes, hbytes⟩ := exists_sumFrom htotal
    have hexact := (toNat_of_sumFrom hbytes).1
    refine ⟨bytes, hbytes, hexact, ?_⟩
    rw [hexact]
    exact copies_of_apart hapart
  · exact ⟨sumFrom_eq_none htotal, fun σ K net r alloc s fd v ↦ v.helper_too_long htotal⟩
  · rw [hvector, sumFrom_append, hp]
    exact ⟨rfl, toNat_of_sumFrom hp⟩

theorem scatter_gather_inverse_empty_buffer :
    gather (scatter (fun _ ↦ 0) [(256, 2), (512, 0), (512, 1)] [10, 20, 30]) 3
      [(256, 2), (512, 0), (512, 1)] = [10, 20, 30] := by
  have hapart : Apart (buffers [⟨256, 2⟩, ⟨512, 0⟩, ⟨512, 1⟩]) := by
    simp [Apart, buffers, List.range'_succ]
  obtain ⟨bytes, -, hbytes, hcopies⟩ :=
    (scatter_gather_inverse [⟨256, 2⟩, ⟨512, 0⟩, ⟨512, 1⟩] fun _ ↦ 0).1 hapart (by decide)
  have hthree : bytes.toNat = 3 := hbytes
  rw [hthree] at hcopies
  exact hcopies.inverse [10, 20, 30] rfl

end SceLibcPosix.Descriptor
