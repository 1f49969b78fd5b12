import Mathlib.Algebra.Group.Nat.Defs
import Mathlib.Data.Nat.Notation
import Mathlib.Data.Int.Notation
import Mathlib.Data.List.DropRight
import SceLibcPosix.Lib.Spans

namespace SceLibcPosix.Mman

open Spans

/-- Sums of `uintptr_t` and `size_t`, which have 32 bits on the target. -/
def addU (a b : ℕ) : ℕ := (a + b) % 2 ^ 32

def subU (a b : ℕ) : ℕ := (a + 2 ^ 32 - b) % 2 ^ 32

/-- `MMAN_PAGE_ALIGN`, with the wrap of its sum. -/
def pageAlign (x : ℕ) : ℕ := addU x 0xfff / 0x1000 * 0x1000

/-- The page multiple that `MMAN_PAGE_ALIGN` stands for. -/
def roundUp (x : ℕ) : ℕ := (x + 0xfff) / 0x1000 * 0x1000

def pageStart (x : ℕ) : ℕ := x / 0x1000 * 0x1000

def poolSize : ℕ := 16 * 1024 * 1024

def maxRegions : ℕ := 256

structure Region where
  addr : ℕ
  len : ℕ
  uid : ℤ
  prot : BitVec 32
deriving DecidableEq, Repr

instance : Span Region ℕ where
  lo r := r.addr
  hi r := r.addr + r.len

def Region.stop (r : Region) : ℕ := addU r.addr r.len

/-- A pointer into the table: the entry it points to and what stands around it. -/
structure Hit (t : List Region) where
  before : List Region
  entry : Region
  after : List Region
  eq : before ++ entry :: after = t

def Hit.cons (r : Region) {t : List Region} (h : Hit t) : Hit (r :: t) :=
  ⟨r :: h.before, h.entry, h.after, congrArg (r :: ·) h.eq⟩

/-- The table after a store through the pointer. -/
def Hit.put {t : List Region} (h : Hit t) (r : Region) : List Region := h.before ++ r :: h.after

def Hit.others {t : List Region} (h : Hit t) : List Region := h.before ++ h.after

def regionFind : (t : List Region) → ℕ → Option (Hit t)
  | [], _ => none
  | r :: t, addr =>
    if r.addr ≤ addr ∧ addr < r.stop then some ⟨[], r, t, rfl⟩
    else (regionFind t addr).map (Hit.cons r)

/-- `_region_insert`. Its loop moves the entries above `addr` up by one, from the last one down,
and stops at the first one that is not above. -/
def regionInsert (t : List Region) (addr len : ℕ) (uid : ℤ) (prot : BitVec 32) :
    Option (List Region) :=
  if maxRegions ≤ t.length then none
  else some (t.rdropWhile (addr < ·.addr) ++ ⟨addr, len, uid, prot⟩ ::
    t.rtakeWhile (addr < ·.addr))

/-- What the table says of an address: the reservation it is part of and its protection. -/
def pageMap (t : List Region) : ℕ → Option (ℤ × BitVec 32) :=
  tagAt (fun r ↦ (r.uid, r.prot)) t

def uidListed (t : List Region) (uid : ℤ) : Bool := t.any (·.uid = uid)

theorem pageAlign_lt (x : ℕ) : pageAlign x < 2 ^ 32 := by
  simp only [pageAlign, addU]
  omega

theorem pageAlign_mod (x : ℕ) : pageAlign x % 0x1000 = 0 := by simp [pageAlign]

theorem pageAlign_eq {x : ℕ} (h : roundUp x < 2 ^ 32) : pageAlign x = roundUp x := by
  simp only [pageAlign, roundUp, addU] at *
  omega

theorem le_roundUp (x : ℕ) : x ≤ roundUp x := by
  simp only [roundUp]
  omega

theorem pageAlign_eq_zero {x : ℕ} (h : x < 2 ^ 32) :
    pageAlign x = 0 ↔ x = 0 ∨ 2 ^ 32 ≤ x + 0xfff := by
  simp only [pageAlign, addU]
  omega

/-- Aligning a length or aligning the end that it gives: modulo 2^32 it is the same. -/
theorem addU_pageAlign {a : ℕ} (ha : a % 0x1000 = 0) (l : ℕ) :
    addU a (pageAlign l) = pageAlign (addU a l) := by
  simp only [pageAlign, addU]
  omega

theorem Region.stop_eq {r : Region} (h : r.addr + r.len < 2 ^ 32) : r.stop = r.addr + r.len :=
  Nat.mod_eq_of_lt h

theorem Hit.mem {t : List Region} (h : Hit t) : h.entry ∈ t := by
  have hm : h.entry ∈ h.before ++ h.entry :: h.after := by simp
  rwa [h.eq] at hm

theorem Hit.mem_put {t : List Region} (h : Hit t) {r x : Region} :
    x ∈ h.put r ↔ x = r ∨ x ∈ h.others := by
  simp only [Hit.put, Hit.others, List.mem_append, List.mem_cons]
  exact or_left_comm

theorem Hit.mem_iff {t : List Region} (h : Hit t) {x : Region} :
    x ∈ t ↔ x = h.entry ∨ x ∈ h.others := by
  have hm : x ∈ h.put h.entry ↔ x = h.entry ∨ x ∈ h.others := h.mem_put
  rwa [Hit.put, h.eq] at hm

theorem Hit.length_put {t : List Region} (h : Hit t) (r : Region) :
    (h.put r).length = t.length := by
  simp [Hit.put, ← h.eq]

theorem regionFind_hit {t : List Region} {addr : ℕ} {h : Hit t} (hf : regionFind t addr = some h) :
    h.entry.addr ≤ addr ∧ addr < h.entry.stop := by
  induction t with
  | nil => cases hf
  | cons r t ih =>
    simp only [regionFind] at hf
    split at hf
    · next hr => cases hf; exact hr
    · obtain ⟨g, hg, rfl⟩ := Option.map_eq_some_iff.mp hf
      exact ih hg

theorem regionFind_none {t : List Region} {addr : ℕ} :
    regionFind t addr = none ↔ ∀ r ∈ t, ¬ (r.addr ≤ addr ∧ addr < r.stop) := by
  induction t with
  | nil => simp [regionFind]
  | cons r t ih =>
    rw [regionFind, List.forall_mem_cons, ← ih]
    split
    · next hr => simp [hr]
    · next hr => simp [hr]

theorem regionInsert_some {t t' : List Region} {addr len : ℕ} {uid : ℤ} {prot : BitVec 32}
    (h : regionInsert t addr len uid prot = some t') :
    t.length < maxRegions ∧ ∃ t₁ t₂, t = t₁ ++ t₂ ∧ t' = t₁ ++ ⟨addr, len, uid, prot⟩ :: t₂ ∧
      (∀ r ∈ t₂, addr < r.addr) ∧ ∀ hne : t₁ ≠ [], (t₁.getLast hne).addr ≤ addr := by
  unfold regionInsert at h
  split at h
  · cases h
  · next hlen =>
    cases h
    refine ⟨by omega, _, _, (List.rdropWhile_append_rtakeWhile).symm, rfl, ?_, ?_⟩
    · intro r hr
      simpa using List.mem_rtakeWhile_imp hr
    · intro hne
      simpa using List.rdropWhile_last_not _ _ hne

theorem regionInsert_mem {t t' : List Region} {addr len : ℕ} {uid : ℤ} {prot : BitVec 32}
    (h : regionInsert t addr len uid prot = some t') (r : Region) :
    r ∈ t' ↔ r = ⟨addr, len, uid, prot⟩ ∨ r ∈ t := by
  obtain ⟨-, t₁, t₂, rfl, rfl, -⟩ := regionInsert_some h
  simp only [List.mem_append, List.mem_cons]
  exact or_left_comm

theorem regionInsert_none {t : List Region} {addr len : ℕ} {uid : ℤ} {prot : BitVec 32} :
    regionInsert t addr len uid prot = none ↔ maxRegions ≤ t.length := by
  simp [regionInsert]

theorem regionInsert_prot {t t' : List Region} {addr len : ℕ} {uid : ℤ} {prot : BitVec 32}
    (h : regionInsert t addr len uid prot = some t') : ∃ t₁ t₂, t = t₁ ++ t₂ ∧
      ∀ prot, regionInsert t addr len uid prot = some (t₁ ++ ⟨addr, len, uid, prot⟩ :: t₂) := by
  have hroom : ¬ maxRegions ≤ t.length := by
    intro hfull
    rw [regionInsert_none.mpr hfull] at h
    cases h
  exact ⟨_, _, (List.rdropWhile_append_rtakeWhile).symm, fun prot ↦ if_neg hroom⟩

end SceLibcPosix.Mman
