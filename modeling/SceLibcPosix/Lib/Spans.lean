import Mathlib.Data.List.Basic
import Mathlib.Order.Lattice

namespace SceLibcPosix.Spans

/-- An entry of a table occupies the half-open span from `lo` to `hi`. -/
class Span (α : Type*) (ι : outParam (Type*)) where
  lo : α → ι
  hi : α → ι

open SceLibcPosix.Spans.Span

variable {α β ι : Type*} [LinearOrder ι] [Span α ι]

def Covers (a : α) (x : ι) : Prop := lo a ≤ x ∧ x < hi a

instance (a : α) (x : ι) : Decidable (Covers a x) := inferInstanceAs (Decidable (_ ∧ _))

/-- Each entry ends before every later one begins. Empty entries are allowed. -/
def Ordered (l : List α) : Prop := l.Pairwise fun a b ↦ hi a ≤ lo b

def Covered (l : List α) (x : ι) : Prop := ∃ a ∈ l, Covers a x

/-- What the table records for a position: the tag of the first entry over it. -/
def tagAt (tag : α → β) (l : List α) (x : ι) : Option β :=
  (l.find? fun a ↦ Covers a x).map tag

/-- A record of positions with those from `s` to `e` taken out. -/
def without (f : ι → Option β) (s e : ι) : ι → Option β :=
  fun x ↦ if s ≤ x ∧ x < e then none else f x

@[simp] theorem covered_nil (x : ι) : ¬ Covered ([] : List α) x := by simp [Covered]

@[simp] theorem covered_cons (a : α) (l : List α) (x : ι) :
    Covered (a :: l) x ↔ Covers a x ∨ Covered l x := by simp [Covered]

@[simp] theorem covered_append (l₁ l₂ : List α) (x : ι) :
    Covered (l₁ ++ l₂) x ↔ Covered l₁ x ∨ Covered l₂ x := by
  simp only [Covered, List.mem_append, or_and_right, exists_or]

theorem Ordered.nil : Ordered ([] : List α) := List.Pairwise.nil

theorem ordered_cons {a : α} {l : List α} :
    Ordered (a :: l) ↔ (∀ b ∈ l, hi a ≤ lo b) ∧ Ordered l := List.pairwise_cons

theorem ordered_append {l₁ l₂ : List α} :
    Ordered (l₁ ++ l₂) ↔ Ordered l₁ ∧ Ordered l₂ ∧ ∀ a ∈ l₁, ∀ b ∈ l₂, hi a ≤ lo b :=
  List.pairwise_append

theorem Ordered.insert {l₁ l₂ : List α} {b : α} (h : Ordered (l₁ ++ l₂))
    (h₁ : ∀ a ∈ l₁, hi a ≤ lo b) (h₂ : ∀ a ∈ l₂, hi b ≤ lo a) : Ordered (l₁ ++ b :: l₂) := by
  obtain ⟨ho₁, ho₂, hx⟩ := ordered_append.mp h
  refine ordered_append.mpr ⟨ho₁, ordered_cons.mpr ⟨h₂, ho₂⟩, ?_⟩
  intro a ha c hc
  rcases List.mem_cons.mp hc with rfl | hc
  · exact h₁ a ha
  · exact hx a ha c hc

theorem Ordered.sublist {l₁ l₂ : List α} (h : Ordered l₂) (hs : l₁.Sublist l₂) : Ordered l₁ :=
  List.Pairwise.sublist hs h

theorem Ordered.splice {l₁ l₂ ps : List α} {a : α} (h : Ordered (l₁ ++ a :: l₂)) (hps : Ordered ps)
    (hin : ∀ b ∈ ps, lo a ≤ lo b ∧ hi b ≤ hi a) : Ordered (l₁ ++ (ps ++ l₂)) := by
  obtain ⟨ho₁, ho, hx⟩ := ordered_append.mp h
  obtain ⟨hl, ho₂⟩ := ordered_cons.mp ho
  refine ordered_append.mpr ⟨ho₁, ordered_append.mpr ⟨hps, ho₂, ?_⟩, ?_⟩
  · exact fun b hb c hc ↦ (hin b hb).2.trans (hl c hc)
  · intro c hc d hd
    rcases List.mem_append.mp hd with hd | hd
    · exact (hx c hc a List.mem_cons_self).trans (hin d hd).1
    · exact hx c hc d (List.mem_cons_of_mem a hd)

theorem Ordered.flatMap {l : List α} {f : α → List α} (h : Ordered l)
    (hf : ∀ a ∈ l, Ordered (f a)) (hin : ∀ a ∈ l, ∀ b ∈ f a, lo a ≤ lo b ∧ hi b ≤ hi a) :
    Ordered (l.flatMap f) := by
  induction l with
  | nil => exact Ordered.nil
  | cons a l ih =>
    obtain ⟨hl, ho⟩ := ordered_cons.mp h
    simp only [List.forall_mem_cons] at hf hin
    refine ordered_append.mpr ⟨hf.1, ih ho hf.2 hin.2, ?_⟩
    intro b hb c hc
    obtain ⟨d, hd, hc⟩ := List.mem_flatMap.mp hc
    exact (hin.1 b hb).2.trans ((hl d hd).trans (hin.2 d hd c hc).1)

theorem Ordered.unique {l : List α} (h : Ordered l) {a b : α} (ha : a ∈ l) (hb : b ∈ l)
    {x : ι} (hax : Covers a x) (hbx : Covers b x) : a = b := by
  induction l with
  | nil => cases ha
  | cons c l ih =>
    obtain ⟨hl, ho⟩ := ordered_cons.mp h
    simp only [List.mem_cons] at ha hb
    rcases ha with rfl | ha <;> rcases hb with rfl | hb
    · rfl
    · exact absurd (hax.2.trans_le ((hl b hb).trans hbx.1)) (lt_irrefl x)
    · exact absurd (hbx.2.trans_le ((hl a ha).trans hax.1)) (lt_irrefl x)
    · exact ih ho ha hb

theorem Ordered.tagAt_eq {l : List α} (h : Ordered l) (tag : α → β) {a : α} (ha : a ∈ l) {x : ι}
    (hx : Covers a x) : tagAt tag l x = some (tag a) := by
  cases hf : l.find? (fun b ↦ Covers b x) with
  | none => exact absurd hx (by simpa using List.find?_eq_none.mp hf a ha)
  | some b =>
    have hb : Covers b x := by simpa using List.find?_some hf
    rw [tagAt, hf, h.unique ha (List.mem_of_find?_eq_some hf) hx hb, Option.map_some]

theorem Ordered.tagAt_eq_some {l : List α} (h : Ordered l) {tag : α → β} {x : ι} {v : β} :
    tagAt tag l x = some v ↔ ∃ a ∈ l, Covers a x ∧ tag a = v := by
  constructor
  · intro hv
    obtain ⟨a, ha, rfl⟩ := Option.map_eq_some_iff.mp hv
    exact ⟨a, List.mem_of_find?_eq_some ha, by simpa using List.find?_some ha, rfl⟩
  · rintro ⟨a, ha, hx, rfl⟩
    exact h.tagAt_eq tag ha hx

/-- Cutting positions out of every entry cuts them out of what the table records. -/
theorem tagAt_flatMap {l : List α} {f : α → List α} {tag : α → β} {x : ι} {P : Prop} [Decidable P]
    (hc : ∀ a ∈ l, Covered (f a) x ↔ Covers a x ∧ ¬ P)
    (ht : ∀ a ∈ l, ∀ b ∈ f a, tag b = tag a) :
    tagAt tag (l.flatMap f) x = if P then none else tagAt tag l x := by
  induction l with
  | nil => simp [tagAt]
  | cons a l ih =>
    simp only [List.forall_mem_cons] at hc ht
    have ih := ih hc.2 ht.2
    cases hf : (f a).find? (fun b ↦ Covers b x) with
    | none =>
      have hn : ¬ Covered (f a) x := by
        rintro ⟨b, hb, hbx⟩
        simpa [hbx] using List.find?_eq_none.mp hf b hb
      rw [hc.1] at hn
      have hl : tagAt tag ((a :: l).flatMap f) x = tagAt tag (l.flatMap f) x := by
        simp only [tagAt, List.flatMap_cons, List.find?_append, hf, Option.none_or]
      by_cases hP : P
      · rw [hl, ih, if_pos hP, if_pos hP]
      · have ha : ¬ Covers a x := fun h ↦ hn ⟨h, hP⟩
        rw [hl, ih, if_neg hP, if_neg hP]
        simp [tagAt, ha]
    | some b =>
      have hb : Covers b x := by simpa using List.find?_some hf
      have hm := List.mem_of_find?_eq_some hf
      obtain ⟨ha, hP⟩ := hc.1.mp ⟨b, hm, hb⟩
      simp [tagAt, List.find?_append, hf, hP, ha, ht.1 b hm]

end SceLibcPosix.Spans
