import Mathlib.Data.List.Nodup
import Mathlib.Logic.Function.Basic

namespace SceLibcPosix.Keyed

variable {α κ β : Type*} [DecidableEq κ]

def find (key : α → κ) (l : List α) (k : κ) : Option α := l.find? fun a ↦ key a = k

/-- The list with an entry in the place of the first one that has its key, or at the end. -/
def put (key : α → κ) (a : α) : List α → List α
  | [] => [a]
  | b :: l => if key b = key a then a :: l else b :: put key a l

def remove (key : α → κ) (k : κ) (l : List α) : List α := l.filter fun a ↦ key a ≠ k

def Distinct (key : α → κ) (l : List α) : Prop := (l.map key).Nodup

variable {key : α → κ} {a b : α} {l : List α} {k : κ}

theorem find_cons : find key (b :: l) k = if key b = k then some b else find key l k := by
  simp only [find, List.find?_cons]
  split <;> simp_all

theorem find_eq_none : find key l k = none ↔ ∀ a ∈ l, key a ≠ k := by
  simp [find, List.find?_eq_none]

theorem key_of_find (h : find key l k = some a) : key a = k := by
  unfold find at h
  simpa using List.find?_some h

theorem find_put : find key (put key a l) k = if key a = k then some a else find key l k := by
  induction l with
  | nil => rw [put, find_cons]
  | cons b l ih =>
    rw [put]
    split
    · next hb =>
      rw [find_cons, find_cons, hb]
      split <;> rfl
    · next hb =>
      rw [find_cons, find_cons, ih]
      split
      · next hk => rw [if_neg fun h ↦ hb (hk.trans h.symm)]
      · rfl

theorem find_remove : find key (remove key k l) = Function.update (find key l) k none := by
  funext k'
  by_cases hk : k' = k
  · subst hk
    rw [Function.update_self, find_eq_none]
    intro a ha
    simpa using (List.mem_filter.mp ha).2
  · rw [Function.update_of_ne hk]
    induction l with
    | nil => rfl
    | cons b l ih =>
      by_cases hb : key b = k
      · rw [remove, List.filter_cons_of_neg (by simpa using hb), find_cons,
          if_neg fun h ↦ hk (h.symm.trans hb)]
        exact ih
      · rw [remove, List.filter_cons_of_pos (by simpa using hb), find_cons, find_cons]
        exact congrArg _ ih

theorem put_of_new (h : ∀ b ∈ l, key b ≠ key a) : put key a l = l ++ [a] := by
  induction l with
  | nil => rfl
  | cons b l ih =>
    obtain ⟨hb, hl⟩ := List.forall_mem_cons.mp h
    rw [put, if_neg hb, ih hl, List.cons_append]

theorem mem_put (hl : Distinct key l) : b ∈ put key a l ↔ b = a ∨ b ∈ l ∧ key b ≠ key a := by
  induction l with
  | nil => simp [put]
  | cons c l ih =>
    obtain ⟨hc, hl⟩ := List.nodup_cons.mp hl
    rw [put]
    split
    · next hca =>
      have hother : ∀ b ∈ l, key b ≠ key a := fun b hb heq ↦
        hc (List.mem_map.mpr ⟨b, hb, heq.trans hca.symm⟩)
      simp only [List.mem_cons]
      refine or_congr_right ⟨fun hb ↦ ⟨.inr hb, hother b hb⟩, fun h ↦ h.1.resolve_left ?_⟩
      rintro rfl
      exact h.2 hca
    · next hca =>
      rw [List.mem_cons, ih hl, List.mem_cons, or_and_right, or_left_comm]
      refine or_congr_right (or_congr_left ?_)
      exact ⟨fun h ↦ ⟨h, h ▸ hca⟩, And.left⟩

theorem Distinct.put (hl : Distinct key l) : Distinct key (put key a l) := by
  induction l with
  | nil => exact List.nodup_singleton _
  | cons b l ih =>
    obtain ⟨hb, hl'⟩ := List.nodup_cons.mp hl
    rw [Keyed.put]
    split
    · next hba =>
      exact List.nodup_cons.mpr ⟨hba ▸ hb, hl'⟩
    · next hba =>
      refine List.nodup_cons.mpr ⟨fun hmem ↦ ?_, ih hl'⟩
      obtain ⟨c, hc, heq⟩ := List.mem_map.mp hmem
      rcases (mem_put hl').mp hc with rfl | ⟨hc, -⟩
      · exact hba heq.symm
      · exact hb (List.mem_map.mpr ⟨c, hc, heq⟩)

theorem Distinct.remove (hl : Distinct key l) : Distinct key (remove key k l) :=
  hl.sublist (List.filter_sublist.map key)

theorem mem_remove : b ∈ remove key k l ↔ b ∈ l ∧ key b ≠ k := by
  simp [remove]

omit [DecidableEq κ] in
theorem Distinct.unique (hl : Distinct key l) (ha : a ∈ l) (hb : b ∈ l) (h : key a = key b) :
    a = b :=
  List.inj_on_of_nodup_map hl ha hb h

end SceLibcPosix.Keyed
