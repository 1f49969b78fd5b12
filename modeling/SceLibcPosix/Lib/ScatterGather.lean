import Mathlib.Algebra.GroupWithZero.Nat
import Mathlib.Data.List.Basic
import Mathlib.Data.List.Nodup
import Mathlib.Logic.Function.Basic

namespace SceLibcPosix.ScatterGather

variable {β : Type*} {mem : ℕ → β} {data : List β} {v : ℕ × ℕ} {iov : List (ℕ × ℕ)}

/-- The addresses of a list of buffers, each given by its base and its length, in order. -/
def addresses (iov : List (ℕ × ℕ)) : List ℕ := iov.flatMap fun v ↦ List.range' v.1 v.2

def total (iov : List (ℕ × ℕ)) : ℕ := (iov.map Prod.snd).sum

/-- Stores values one after the other at the addresses given. -/
def storeAll (mem : ℕ → β) : List ℕ → List β → ℕ → β
  | a :: as, b :: bs => storeAll (Function.update mem a b) as bs
  | _, _ => mem

/-- The memory once `data` has been laid out over the buffers in order. -/
def layOut (mem : ℕ → β) (iov : List (ℕ × ℕ)) (data : List β) : ℕ → β :=
  storeAll mem (addresses iov) data

def contents (mem : ℕ → β) (iov : List (ℕ × ℕ)) : List β := (addresses iov).map mem

def Apart (iov : List (ℕ × ℕ)) : Prop :=
  iov.Pairwise fun v w ↦ (List.range' v.1 v.2).Disjoint (List.range' w.1 w.2)

theorem addresses_cons : addresses (v :: iov) = List.range' v.1 v.2 ++ addresses iov := by
  simp [addresses]

theorem total_cons : total (v :: iov) = v.2 + total iov := by
  simp [total]

theorem length_addresses : (addresses iov).length = total iov := by
  induction iov with
  | nil => rfl
  | cons v iov ih => rw [addresses_cons, List.length_append, List.length_range', ih, total_cons]

theorem length_contents : (contents mem iov).length = total iov := by
  rw [contents, List.length_map, length_addresses]

theorem storeAll_nil (as : List ℕ) : storeAll mem as ([] : List β) = mem := by
  cases as <;> rfl

theorem layOut_nil : layOut mem iov ([] : List β) = mem := storeAll_nil _

theorem storeAll_append (as as' : List ℕ) (bs : List β) : storeAll mem (as ++ as') bs =
    storeAll (storeAll mem as (bs.take as.length)) as' (bs.drop as.length) := by
  induction as generalizing mem bs with
  | nil => rfl
  | cons a as ih =>
    cases bs with
    | nil => rw [List.take_nil, List.drop_nil, storeAll_nil, storeAll_nil, storeAll_nil]
    | cons b bs => exact ih bs

theorem storeAll_min (s n : ℕ) (bs : List β) :
    storeAll mem (List.range' s (min n bs.length)) bs =
      storeAll mem (List.range' s n) (bs.take n) := by
  induction n generalizing mem s bs with
  | zero =>
    rw [Nat.zero_min]
    rfl
  | succ n ih =>
    cases bs with
    | nil => rw [List.take_nil, storeAll_nil, storeAll_nil]
    | cons b bs =>
      rw [List.length_cons, Nat.succ_min_succ, List.range'_succ, List.range'_succ]
      exact ih (s + 1) bs

theorem storeAll_of_notMem {a : ℕ} {as : List ℕ} {bs : List β} (ha : a ∉ as.take bs.length) :
    storeAll mem as bs a = mem a := by
  induction as generalizing mem bs with
  | nil => rfl
  | cons a' as ih =>
    cases bs with
    | nil => rw [storeAll_nil]
    | cons b bs =>
      rw [List.length_cons, List.take_succ_cons, List.mem_cons, not_or] at ha
      rw [storeAll, ih ha.2, Function.update_of_ne ha.1]

theorem map_storeAll {as : List ℕ} {bs : List β} (hnodup : as.Nodup)
    (hlen : bs.length ≤ as.length) :
    as.map (storeAll mem as bs) = bs ++ (as.map mem).drop bs.length := by
  induction as generalizing mem bs with
  | nil =>
    obtain rfl := List.length_eq_zero_iff.mp (Nat.le_zero.mp hlen)
    rfl
  | cons a as ih =>
    cases bs with
    | nil =>
      rw [storeAll_nil]
      rfl
    | cons b bs =>
      obtain ⟨ha, has⟩ := List.nodup_cons.mp hnodup
      have hhead : storeAll (Function.update mem a b) as bs a = b := by
        rw [storeAll_of_notMem fun h ↦ ha (List.mem_of_mem_take h), Function.update_self]
      have htail : as.map (Function.update mem a b) = as.map mem := by
        apply List.map_congr_left
        intro a' ha'
        exact Function.update_of_ne (ne_of_mem_of_not_mem ha' ha) b mem
      rw [storeAll, List.map_cons, hhead, ih has (Nat.le_of_succ_le_succ hlen), htail]
      rfl

theorem layOut_cons : layOut mem (v :: iov) data =
    layOut (storeAll mem (List.range' v.1 v.2) (data.take v.2)) iov (data.drop v.2) := by
  rw [layOut, addresses_cons, storeAll_append, List.length_range']
  rfl

theorem contents_cons : contents mem (v :: iov) =
    (List.range' v.1 v.2).map mem ++ contents mem iov := by
  rw [contents, addresses_cons, List.map_append]
  rfl

theorem Apart.nodup_addresses (h : Apart iov) : (addresses iov).Nodup :=
  List.nodup_flatMap.mpr ⟨fun _ _ ↦ List.nodup_range', h⟩

theorem layOut_of_notMem {a : ℕ} (ha : a ∉ (addresses iov).take data.length) :
    layOut mem iov data a = mem a := storeAll_of_notMem ha

theorem Apart.contents_layOut (h : Apart iov) (hlen : data.length ≤ total iov) :
    contents (layOut mem iov data) iov = data ++ (contents mem iov).drop data.length :=
  map_storeAll h.nodup_addresses (length_addresses ▸ hlen)

theorem Apart.contents_layOut_full (h : Apart iov) (hlen : data.length = total iov) :
    contents (layOut mem iov data) iov = data := by
  rw [h.contents_layOut (Nat.le_of_eq hlen), hlen, ← length_contents, List.drop_length,
    List.append_nil]

end SceLibcPosix.ScatterGather
