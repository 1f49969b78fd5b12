import Mathlib.Data.BitVec
import Mathlib.Data.List.Basic

namespace SceLibcPosix.Flags

variable {w : ℕ} {x y c m out out' : BitVec w} {rules : List (BitVec w × BitVec w)}

/-- A flag, or one of several, is in the word. -/
def Has (x c : BitVec w) : Prop := x &&& c ≠ 0

instance : Decidable (Has x c) := inferInstanceAs (Decidable (_ ≠ _))

/-- A flag word in another numbering: each rule adds its second word where it finds its first. -/
def translate (rules : List (BitVec w × BitVec w)) (out x : BitVec w) : BitVec w :=
  rules.foldl (fun out r ↦ if Has x r.1 then out ||| r.2 else out) out

theorem has_or : Has (x ||| y) c ↔ Has x c ∨ Has y c := by
  rw [Has, BitVec.and_or_distrib_right]
  exact (not_congr BitVec.or_eq_zero_iff).trans not_and_or

theorem has_or_right {d : BitVec w} : Has x (c ||| d) ↔ Has x c ∨ Has x d := by
  rw [Has, BitVec.and_or_distrib_left]
  exact (not_congr BitVec.or_eq_zero_iff).trans not_and_or

theorem has_twoPow {i : ℕ} (hi : i < w) : Has x (BitVec.twoPow w i) ↔ x.getLsbD i = true := by
  have hne : BitVec.twoPow w i ≠ 0 := by
    intro h
    have hbit := congrArg (·.getLsbD i) h
    simp [hi] at hbit
  rw [Has, BitVec.and_twoPow]
  split
  · next h => exact iff_of_true hne h
  · next h => exact iff_of_false (fun h' ↦ h' rfl) h

theorem Has.and_twoPow {i : ℕ} (h : Has x (BitVec.twoPow w i)) :
    x &&& BitVec.twoPow w i = BitVec.twoPow w i := by
  rw [Has, BitVec.and_twoPow] at h
  rw [BitVec.and_twoPow]
  split
  · rfl
  · next hi => exact absurd (if_neg hi) h

theorem translate_cons (r : BitVec w × BitVec w) : translate (r :: rules) out x =
    translate rules (if Has x r.1 then out ||| r.2 else out) x := rfl

theorem has_translate :
    Has (translate rules out x) c ↔ Has out c ∨ ∃ r ∈ rules, Has x r.1 ∧ Has r.2 c := by
  induction rules generalizing out with
  | nil => exact ⟨Or.inl, fun h ↦ h.resolve_right fun ⟨_, hr, _⟩ ↦ List.not_mem_nil hr⟩
  | cons r rules ih =>
    rw [translate_cons, ih]
    simp only [List.mem_cons, exists_eq_or_imp]
    by_cases hr : Has x r.1
    · rw [if_pos hr, has_or, or_assoc, and_iff_right hr]
    · rw [if_neg hr, iff_false_intro (fun h : Has x r.1 ∧ Has r.2 c ↦ hr h.1), false_or]

theorem translate_and_congr (hout : out &&& m = out' &&& m)
    (h : ∀ r ∈ rules, Has r.2 m → (Has x r.1 ↔ Has y r.1)) :
    translate rules out x &&& m = translate rules out' y &&& m := by
  induction rules generalizing out out' with
  | nil => exact hout
  | cons r rules ih =>
    rw [translate_cons, translate_cons]
    refine ih ?_ fun r' hr' ↦ h r' (List.mem_cons_of_mem r hr')
    by_cases hm : Has r.2 m
    · rw [if_congr (h r List.mem_cons_self hm) rfl rfl]
      split
      · rw [BitVec.and_or_distrib_right, hout, BitVec.and_or_distrib_right]
      · exact hout
    · have hr (z out : BitVec w) : (if Has z r.1 then out ||| r.2 else out) &&& m = out &&& m := by
        split
        · rw [BitVec.and_or_distrib_right, not_not.mp hm]
          exact BitVec.or_zero
        · rfl
      rw [hr, hr, hout]

theorem translate_or_and (hout : out &&& m = out' &&& m)
    (h : ∀ r ∈ rules, Has r.2 m → ¬ Has c r.1) :
    translate rules out (x ||| c) &&& m = translate rules out' x &&& m := by
  refine translate_and_congr hout fun r hr hm ↦ ?_
  rw [has_or]
  exact or_iff_left (h r hr hm)

theorem setWidth_and {k : ℕ} (h : (m.setWidth k).setWidth w = m) :
    (x.setWidth k).setWidth w &&& m = x &&& m := by
  apply BitVec.eq_of_getLsbD_eq
  intro i hi
  have hm : m.getLsbD i = (decide (i < k) && m.getLsbD i) := by
    conv_lhs => rw [← h]
    simp [hi]
  rw [BitVec.getLsbD_and, BitVec.getLsbD_and, hm]
  by_cases hk : i < k
  · simp [hi, hk]
  · simp [hk]

end SceLibcPosix.Flags
