import Mathlib.Algebra.Group.Nat.Defs
import Mathlib.Data.List.Nodup
import Mathlib.Data.Nat.Notation

namespace SceLibcPosix.Heaps

/-- An address: a block that `malloc` has returned, counted in the order of the calls, or memory
that it has not returned. -/
inductive Pointer
  | block (n : ℕ)
  | foreign (n : ℕ)
deriving DecidableEq, Repr

/-- The number of blocks allocated so far and the addresses that have been freed, last one first. -/
structure Heap where
  next : ℕ := 0
  freed : List Pointer := []

namespace Heap

variable {h : Heap} {p q : Pointer} {ok : Bool}

def malloc (h : Heap) (ok : Bool) : Option Pointer × Heap :=
  if ok then (some (.block h.next), { h with next := h.next + 1 }) else (none, h)

def free (h : Heap) : Option Pointer → Heap
  | none => h
  | some p => { h with freed := p :: h.freed }

/-- A block that grows moves to a new address. -/
def realloc (h : Heap) (ok : Bool) (old : Option Pointer) : Option Pointer × Heap :=
  if ok then (some (.block h.next), { h with next := h.next + 1 }.free old) else (none, h)

def Allocated (h : Heap) (p : Pointer) : Prop := ∃ n, n < h.next ∧ p = .block n

def Live (h : Heap) (p : Pointer) : Prop := h.Allocated p ∧ p ∉ h.freed

/-- Only blocks have been freed, and each of them once. -/
structure Sound (h : Heap) : Prop where
  own : ∀ p ∈ h.freed, h.Allocated p
  once : h.freed.Nodup

/-- What later calls can make of a heap: blocks are added, and addresses to those freed. -/
structure Grows (h h' : Heap) : Prop where
  next : h.next ≤ h'.next
  freed : h.freed <:+ h'.freed

@[simp] theorem free_next (p : Option Pointer) : (h.free p).next = h.next := by cases p <;> rfl

@[simp] theorem free_none : h.free none = h := rfl

@[simp] theorem free_some : (h.free (some p)).freed = p :: h.freed := rfl

theorem sound_empty : Sound {} := ⟨by simp, List.nodup_nil⟩

theorem allocated_succ : ({ h with next := h.next + 1 } : Heap).Allocated p ↔
    h.Allocated p ∨ p = .block h.next := by
  constructor
  · rintro ⟨n, hn, rfl⟩
    rcases Nat.lt_succ_iff_lt_or_eq.mp hn with hn | rfl
    · exact .inl ⟨n, hn, rfl⟩
    · exact .inr rfl
  · rintro (⟨n, hn, rfl⟩ | rfl)
    · exact ⟨n, Nat.lt_succ_of_lt hn, rfl⟩
    · exact ⟨h.next, Nat.lt_succ_self _, rfl⟩

theorem not_allocated_next : ¬ h.Allocated (.block h.next) := by
  rintro ⟨n, hn, heq⟩
  cases heq
  exact Nat.lt_irrefl _ hn

theorem Sound.succ (hs : h.Sound) : Sound { h with next := h.next + 1 } :=
  ⟨fun p hp ↦ allocated_succ.mpr (.inl (hs.own p hp)), hs.once⟩

theorem Sound.live_succ (hs : h.Sound) : ({ h with next := h.next + 1 } : Heap).Live p ↔
    h.Live p ∨ p = .block h.next := by
  unfold Live
  rw [allocated_succ, or_and_right]
  refine or_congr Iff.rfl (and_iff_left_of_imp ?_)
  rintro rfl hfreed
  exact not_allocated_next (hs.own _ hfreed)

theorem Sound.free (hs : h.Sound) (hp : h.Live p) : (h.free (some p)).Sound where
  own := by
    intro q hq
    rcases List.mem_cons.mp hq with rfl | hq
    · exact hp.1
    · exact hs.own q hq
  once := List.nodup_cons.mpr ⟨hp.2, hs.once⟩

theorem live_free : (h.free (some p)).Live q ↔ h.Live q ∧ q ≠ p := by
  simp only [Live, Allocated, free_next, free_some, List.mem_cons, not_or, and_assoc]
  exact and_congr_right fun _ ↦ and_comm

theorem live_free_option {r : Option Pointer} :
    (h.free r).Live q ↔ h.Live q ∧ r ≠ some q := by
  cases r with
  | none => simp
  | some p => simp [live_free, eq_comm]

theorem live_foldr_free (ps : List Pointer) :
    (ps.foldr (fun p h ↦ h.free (some p)) h).Live q ↔ h.Live q ∧ q ∉ ps := by
  induction ps with
  | nil => simp
  | cons p ps ih =>
    rw [List.foldr_cons, live_free, ih, List.mem_cons, not_or, and_assoc, and_comm (a := q ∉ ps)]

theorem Grows.refl (h : Heap) : h.Grows h := ⟨Nat.le_refl _, List.suffix_rfl⟩

theorem Grows.trans {h h' h'' : Heap} (hg : h.Grows h') (hg' : h'.Grows h'') : h.Grows h'' :=
  ⟨Nat.le_trans hg.next hg'.next, hg.freed.trans hg'.freed⟩

theorem grows_succ : h.Grows { h with next := h.next + 1 } := ⟨Nat.le_succ _, List.suffix_rfl⟩

theorem grows_free (p : Option Pointer) : h.Grows (h.free p) := by
  cases p with
  | none => exact .refl h
  | some p => exact ⟨Nat.le_refl _, List.suffix_cons p _⟩

theorem Grows.allocated {h h' : Heap} (hg : h.Grows h') (hp : h.Allocated p) :
    h'.Allocated p := by
  obtain ⟨n, hn, rfl⟩ := hp
  exact ⟨n, Nat.lt_of_lt_of_le hn hg.next, rfl⟩

end Heap

end SceLibcPosix.Heaps
