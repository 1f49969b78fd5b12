import Mathlib.Tactic.Linarith
import SceLibcPosix.Mman.Calls

namespace SceLibcPosix.Mman

open Spans

/-- What the code relies on in every table: entries in order, on page boundaries, with
representable ends. Entries may be empty. -/
structure Tidy (t : List Region) : Prop where
  ordered : Ordered t
  fits : ∀ r ∈ t, r.addr + r.len < 2 ^ 32
  aligned : ∀ r ∈ t, r.addr % 0x1000 = 0 ∧ r.len % 0x1000 = 0
  count : t.length ≤ maxRegions

/-- What remains of an entry when the positions from `s` to `e` are taken out of it. -/
def carve (s e : ℕ) (r : Region) : List Region :=
  if r.addr + r.len ≤ s ∨ e ≤ r.addr then [r]
  else (if r.addr < s then [{ r with len := s - r.addr }] else []) ++
    if e < r.addr + r.len then [{ r with addr := e, len := r.addr + r.len - e }] else []

def clipLo (s : ℕ) (r : Region) : ℕ := if r.addr < s then s else r.addr

def clipHi (e : ℕ) (r : Region) : ℕ := if e < r.addr + r.len then e else r.addr + r.len

def Meets (s e : ℕ) (r : Region) : Prop := s < r.addr + r.len ∧ r.addr < e

/-- The range from `s` to `e` lies strictly inside the entry. -/
def Inside (s e : ℕ) (r : Region) : Prop := r.addr < s ∧ e < r.addr + r.len

/-- The one situation in which the entry cannot be split: the table is full. -/
def Blocked (s e : ℕ) (n : ℕ) (t : List Region) : Prop := maxRegions ≤ n ∧ ∃ r ∈ t, Inside s e r

instance (s e : ℕ) (r : Region) : Decidable (Meets s e r) := inferInstanceAs (Decidable (_ ∧ _))

instance (s e : ℕ) (r : Region) : Decidable (Inside s e r) := inferInstanceAs (Decidable (_ ∧ _))

instance (s e n : ℕ) (t : List Region) : Decidable (Blocked s e n t) :=
  inferInstanceAs (Decidable (_ ∧ ∃ r ∈ t, Inside s e r))

theorem ordered_cons' {r : Region} {t : List Region} :
    Ordered (r :: t) ↔ (∀ x ∈ t, r.addr + r.len ≤ x.addr) ∧ Ordered t := ordered_cons

theorem ordered_append' {t₁ t₂ : List Region} :
    Ordered (t₁ ++ t₂) ↔ Ordered t₁ ∧ Ordered t₂ ∧
      ∀ x ∈ t₁, ∀ y ∈ t₂, x.addr + x.len ≤ y.addr := ordered_append

theorem covers_iff {r : Region} {x : ℕ} : Covers r x ↔ r.addr ≤ x ∧ x < r.addr + r.len := Iff.rfl

section Carve

variable {s e : ℕ} {r : Region}

theorem carve_ordered (hse : s ≤ e) : Ordered (carve s e r) := by
  unfold carve
  split
  · simp [Ordered]
  · refine ordered_append'.mpr ⟨?_, ?_, ?_⟩
    · split <;> simp [Ordered]
    · split <;> simp [Ordered]
    · intro x hx y hy
      split at hx
      · split at hy
        · simp only [List.mem_singleton] at hx hy
          subst hx hy
          dsimp only
          omega
        · cases hy
      · cases hx

theorem carve_cases {P : Region → Prop} {p : Region} (hp : p ∈ carve s e r) (hself : P r)
    (hlow : r.addr < s → s < r.addr + r.len → P { r with len := s - r.addr })
    (hhigh : r.addr < e → e < r.addr + r.len →
      P { r with addr := e, len := r.addr + r.len - e }) : P p := by
  unfold carve at hp
  split at hp
  · rwa [List.mem_singleton.mp hp]
  next hmeet =>
  rw [not_or, not_le, not_le] at hmeet
  rcases List.mem_append.mp hp with hp | hp
  · split at hp
    · next h =>
      rw [List.mem_singleton.mp hp]
      exact hlow h hmeet.1
    · cases hp
  · split at hp
    · next h =>
      rw [List.mem_singleton.mp hp]
      exact hhigh hmeet.2 h
    · cases hp

theorem carve_within {p : Region} (hp : p ∈ carve s e r) :
    r.addr ≤ p.addr ∧ p.addr + p.len ≤ r.addr + r.len ∧ p.uid = r.uid ∧ p.prot = r.prot := by
  apply carve_cases hp
  · exact ⟨le_rfl, le_rfl, rfl, rfl⟩
  · intro hlo hhi
    exact ⟨le_rfl, by dsimp only; omega, rfl, rfl⟩
  · intro hlo hhi
    exact ⟨hlo.le, by dsimp only; omega, rfl, rfl⟩

theorem carve_length (hi : ¬ Inside s e r) : (carve s e r).length ≤ 1 := by
  unfold Inside at hi
  unfold carve
  split
  · simp
  · split <;> split <;> simp
    omega

theorem carve_covered (hse : s < e) (x : ℕ) :
    Covered (carve s e r) x ↔ Covers r x ∧ ¬ (s ≤ x ∧ x < e) := by
  unfold carve
  simp only [covers_iff]
  split
  · simp only [covered_cons, covered_nil, or_false, covers_iff]
    omega
  · rw [covered_append]
    split <;> split <;>
      simp only [covered_cons, covered_nil, or_false, false_or, false_iff, covers_iff] <;> omega

theorem carve_eq_self (h : ¬ Meets s e r) : carve s e r = [r] := by
  unfold Meets at h
  rw [carve, if_pos (by omega)]

theorem flatMap_carve_eq_self {t : List Region} (h : ∀ r ∈ t, ¬ Meets s e r) :
    t.flatMap (carve s e) = t := by
  induction t with
  | nil => rfl
  | cons r t ih =>
    simp only [List.forall_mem_cons] at h
    rw [List.flatMap_cons, carve_eq_self h.1, ih h.2, List.singleton_append]

end Carve

theorem regionInsert_between {t₁ t₂ : List Region} {addr len : ℕ} {uid : ℤ} {prot : BitVec 32}
    (h₁ : ∀ r ∈ t₁, r.addr ≤ addr) (h₂ : ∀ r ∈ t₂, addr < r.addr) :
    regionInsert (t₁ ++ t₂) addr len uid prot =
      if maxRegions ≤ (t₁ ++ t₂).length then none
      else some (t₁ ++ ⟨addr, len, uid, prot⟩ :: t₂) := by
  have hd : (t₁ ++ t₂).rdropWhile (addr < ·.addr) = t₁ := by
    rw [List.rdropWhile, List.reverse_append, List.dropWhile_append_of_pos (by simpa using h₂),
      ← List.rdropWhile, List.rdropWhile_eq_self_iff]
    intro hne
    simpa using h₁ _ (List.getLast_mem hne)
  have ht : (t₁ ++ t₂).rtakeWhile (addr < ·.addr) = t₂ := by
    have h := List.rdropWhile_append_rtakeWhile (p := fun r : Region ↦ decide (addr < r.addr))
      (l := t₁ ++ t₂)
    rw [hd] at h
    exact List.append_cancel_left h
  rw [regionInsert, hd, ht]

@[simp] theorem releaseReservation_regions (m : State) (uid : ℤ) :
    (releaseReservation m uid).regions = m.regions := by
  unfold releaseReservation
  split
  · rfl
  · split <;> rfl

section Loop

variable {s e : ℕ} {r : Region} {t passed : List Region}

theorem unmapLoop_skip (hf : r.addr + r.len < 2 ^ 32) (h : ¬ Meets s e r) (m : State) (ret : ℤ) :
    unmapLoop s e m ret passed (r :: t) = unmapLoop s e m ret (passed ++ [r]) t := by
  unfold Meets at h
  rw [unmapLoop, Region.stop_eq hf, if_pos (by omega)]

theorem unmapLoop_skips {t' : List Region} (m : State) (ret : ℤ)
    (hf : ∀ r ∈ t, r.addr + r.len < 2 ^ 32) (hno : ∀ r ∈ t, ¬ Meets s e r) :
    unmapLoop s e m ret passed (t ++ t') = unmapLoop s e m ret (passed ++ t) t' := by
  induction t generalizing passed with
  | nil => simp
  | cons r t ih =>
    rw [List.forall_mem_cons] at hf hno
    rw [List.cons_append, unmapLoop_skip hf.1 hno.1, ih hf.2 hno.2]
    simp

theorem unmapLoop_none (m : State) (ret : ℤ) (hf : ∀ r ∈ t, r.addr + r.len < 2 ^ 32)
    (hno : ∀ r ∈ t, ¬ Meets s e r) :
    unmapLoop s e m ret passed t = (ret, m.setRegions (passed ++ t)) := by
  have h : unmapLoop s e m ret passed (t ++ []) = _ := unmapLoop_skips m ret hf hno
  rwa [List.append_nil] at h

def decommitPart (s e : ℕ) (r : Region) (m : State) : State :=
  if 0 ≤ r.uid then m.call (.decommit (clipLo s r) (subU (clipHi e r) (clipLo s r))) else m

@[simp] theorem decommitPart_regions (m : State) :
    (decommitPart s e r m).regions = m.regions := by
  unfold decommitPart
  split <;> rfl

theorem subU_eq {a b : ℕ} (ha : a < 2 ^ 32) (h : b ≤ a) : subU a b = a - b := by
  unfold subU
  omega

theorem unmapLoop_trim (hf : r.addr + r.len < 2 ^ 32) (h : Meets s e r) (hi : ¬ Inside s e r)
    (m : State) (ret : ℤ) :
    unmapLoop s e m ret passed (r :: t) = unmapLoop s e
      (if carve s e r = [] then
        releaseReservation ((decommitPart s e r m).setRegions (passed ++ t)) r.uid
      else decommitPart s e r m) 0 (passed ++ carve s e r) t := by
  unfold Meets at h
  unfold Inside at hi
  have hn : ¬ (r.addr + r.len ≤ s ∨ e ≤ r.addr) := by omega
  simp only [unmapLoop, Region.stop_eq hf, decommitPart, carve, clipLo, clipHi, if_neg hn]
  by_cases h₁ : r.addr < s
  · have h₂ : ¬ e < r.addr + r.len := by omega
    have hne : s ≠ r.addr := by omega
    simp [h₁, h₂, hne, subU_eq hf h.1.le, subU_eq (show s < 2 ^ 32 by omega) h₁.le]
  · by_cases h₂ : e < r.addr + r.len
    · have hne : e ≠ r.addr + r.len := by omega
      simp [h₁, h₂, hne, subU_eq hf h₂.le, subU_eq (show e < 2 ^ 32 by omega) h.2.le]
    · simp [h₁, h₂, subU_eq hf (Nat.le_add_right _ _)]

theorem unmapLoop_inside (hf : r.addr + r.len < 2 ^ 32) (hm : Meets s e r) (h : Inside s e r)
    (m : State) (ret : ℤ) :
    unmapLoop s e m ret passed (r :: t) =
      (regionInsert (passed ++ { r with len := s - r.addr } :: t) e (r.addr + r.len - e) r.uid
        r.prot).elim (ret, (decommitPart s e r m).setRegions (passed ++ r :: t))
        fun t' ↦ (0, (decommitPart s e r m).setRegions t') := by
  unfold Meets at hm
  unfold Inside at h
  have hn : ¬ (r.addr + r.len ≤ s ∨ e ≤ r.addr) := by omega
  have hs : s ≠ r.addr := by omega
  have he : e ≠ r.addr + r.len := by omega
  simp only [unmapLoop, Region.stop_eq hf, decommitPart, clipLo, clipHi, if_neg hn, if_pos h.1,
    if_pos h.2, hs, he, false_and, if_false, subU_eq hf h.2.le,
    subU_eq (show s < 2 ^ 32 by omega) h.1.le, subU_eq hf (Nat.le_add_right _ _),
    Nat.add_sub_cancel_left]
  cases regionInsert (passed ++ { r with len := s - r.addr } :: t) e (r.addr + r.len - e) r.uid
    r.prot with
  | none => rfl
  | some t' => rfl

theorem regionInsert_split (ho : Ordered (passed ++ r :: t)) (hse : s < e) (h : Inside s e r) :
    regionInsert (passed ++ { r with len := s - r.addr } :: t) e (r.addr + r.len - e) r.uid r.prot =
      if maxRegions ≤ (passed ++ r :: t).length then none
      else some (passed ++ (carve s e r ++ t)) := by
  unfold Inside at h
  obtain ⟨-, hort, hx⟩ := ordered_append'.mp ho
  have hrt := (ordered_cons'.mp hort).1
  have hn : ¬ (r.addr + r.len ≤ s ∨ e ≤ r.addr) := by omega
  rw [List.append_cons, regionInsert_between, carve, if_neg hn, if_pos h.1, if_pos h.2]
  · simp
  · intro x hm
    rcases List.mem_append.mp hm with hm | hm
    · have := hx x hm r List.mem_cons_self
      omega
    · rw [List.mem_singleton.mp hm]
      dsimp only
      omega
  · intro x hm
    have := hrt x hm
    omega

def afterTrim (s e : ℕ) (m : State) (passed : List Region) (r : Region) (t : List Region) : State :=
  if carve s e r = [] then
    releaseReservation ((decommitPart s e r m).setRegions (passed ++ t)) r.uid
  else decommitPart s e r m

theorem unmapLoop_induction {P : State → ℤ → List Region → List Region → ℤ × State → Prop}
    (done : ∀ m ret passed, P m ret passed [] (ret, m.setRegions passed))
    (skip : ∀ m ret passed r t res, ¬ Meets s e r → P m ret (passed ++ [r]) t res →
      P m ret passed (r :: t) res)
    (trim : ∀ m ret passed r t res, Meets s e r → ¬ Inside s e r →
      P (afterTrim s e m passed r t) 0 (passed ++ carve s e r) t res → P m ret passed (r :: t) res)
    (full : ∀ m ret passed r t, Meets s e r → Inside s e r →
      maxRegions ≤ (passed ++ r :: t).length →
      P m ret passed (r :: t) (ret, (decommitPart s e r m).setRegions (passed ++ r :: t)))
    (split : ∀ m ret passed r t t', Meets s e r → Inside s e r →
      regionInsert (passed ++ { r with len := s - r.addr } :: t) e (r.addr + r.len - e)
        r.uid r.prot = some t' →
      P m ret passed (r :: t) (0, (decommitPart s e r m).setRegions t'))
    (m : State) (ret : ℤ) (hf : ∀ r ∈ t, r.addr + r.len < 2 ^ 32) :
    P m ret passed t (unmapLoop s e m ret passed t) := by
  induction t generalizing m ret passed with
  | nil => exact done m ret passed
  | cons r t ih =>
    simp only [List.forall_mem_cons] at hf
    by_cases hm : Meets s e r
    · by_cases hi : Inside s e r
      · rw [unmapLoop_inside hf.1 hm hi]
        cases hins : regionInsert (passed ++ { r with len := s - r.addr } :: t) e
          (r.addr + r.len - e) r.uid r.prot with
        | none =>
          refine full m ret passed r t hm hi ?_
          have hlen := regionInsert_none.mp hins
          simpa using hlen
        | some t' => exact split m ret passed r t t' hm hi hins
      · rw [unmapLoop_trim hf.1 hm hi]
        exact trim m ret passed r t _ hm hi (ih _ _ hf.2)
    · rw [unmapLoop_skip hf.1 hm]
      exact skip m ret passed r t _ hm (ih m ret hf.2)

theorem unmapLoop_induction' {P : State → ℤ → List Region → List Region → ℤ × State → Prop}
    (hse : s < e) (done : ∀ m ret passed, P m ret passed [] (ret, m.setRegions passed))
    (skip : ∀ m ret passed r t res, ¬ Meets s e r → P m ret (passed ++ [r]) t res →
      P m ret passed (r :: t) res)
    (trim : ∀ m ret passed r t res, Ordered (passed ++ r :: t) → Meets s e r → ¬ Inside s e r →
      P (afterTrim s e m passed r t) 0 (passed ++ carve s e r) t res → P m ret passed (r :: t) res)
    (full : ∀ m ret passed r t, Ordered (passed ++ r :: t) → Inside s e r →
      maxRegions ≤ (passed ++ r :: t).length →
      P m ret passed (r :: t) (ret, (decommitPart s e r m).setRegions (passed ++ r :: t)))
    (split : ∀ m ret passed r t, Ordered (passed ++ r :: t) → Inside s e r →
      ¬ maxRegions ≤ (passed ++ r :: t).length →
      P m ret passed (r :: t) (0, (decommitPart s e r m).setRegions (passed ++ (carve s e r ++ t))))
    (m : State) (ret : ℤ) (ho : Ordered (passed ++ t)) (hf : ∀ r ∈ t, r.addr + r.len < 2 ^ 32) :
    P m ret passed t (unmapLoop s e m ret passed t) := by
  refine unmapLoop_induction (P := fun m ret passed t res ↦ Ordered (passed ++ t) →
    P m ret passed t res) ?_ ?_ ?_ ?_ ?_ m ret hf ho
  · exact fun m ret passed _ ↦ done m ret passed
  · exact fun m ret passed r t res hm ih ho ↦
      skip m ret passed r t res hm (ih (by simpa using ho))
  · intro m ret passed r t res hm hi ih ho
    refine trim m ret passed r t res ho hm hi (ih ?_)
    rw [List.append_assoc]
    exact ho.splice (carve_ordered hse.le) fun p hp ↦ ⟨(carve_within hp).1, (carve_within hp).2.1⟩
  · exact fun m ret passed r t _ hi hc ho ↦ full m ret passed r t ho hi hc
  · intro m ret passed r t t' _ hi hins ho
    rw [regionInsert_split ho hse hi] at hins
    split at hins
    · cases hins
    · next hc =>
      cases hins
      exact split m ret passed r t ho hi hc

theorem Inside.meets (hse : s < e) (h : Inside s e r) : Meets s e r := by
  unfold Inside at h
  exact ⟨by omega, by omega⟩

theorem Inside.alone (ho : Ordered (r :: t)) (h : Inside s e r) : ∀ x ∈ t, ¬ Meets s e x := by
  intro x hx
  have := (ordered_cons'.mp ho).1 x hx
  unfold Inside at h
  unfold Meets
  omega

theorem Meets.no_inside (ho : Ordered (r :: t)) (h : Meets s e r) : ∀ x ∈ t, ¬ Inside s e x := by
  intro x hx
  have := (ordered_cons'.mp ho).1 x hx
  unfold Meets at h
  unfold Inside
  omega

theorem blocked_cons {n : ℕ} (hi : ¬ Inside s e r) : Blocked s e n (r :: t) ↔ Blocked s e n t := by
  simp [Blocked, hi]

theorem not_blocked {n : ℕ} (h : ∀ r ∈ t, ¬ Inside s e r) : ¬ Blocked s e n t := by
  rintro ⟨-, r, hr, hi⟩
  exact h r hr hi

/-- The loop takes the range out of every entry, unless it would have to split one in a full
table. -/
theorem unmapLoop_regions (hse : s < e) (passed : List Region) (m : State) (ret : ℤ)
    (ho : Ordered (passed ++ t)) (hf : ∀ r ∈ t, r.addr + r.len < 2 ^ 32) :
    (unmapLoop s e m ret passed t).2.regions =
      passed ++ if Blocked s e (passed ++ t).length t then t else t.flatMap (carve s e) := by
  refine unmapLoop_induction' (P := fun _ _ passed t res ↦ res.2.regions =
    passed ++ if Blocked s e (passed ++ t).length t then t else t.flatMap (carve s e))
    hse ?_ ?_ ?_ ?_ ?_ m ret ho hf
  · intro m ret passed
    simp
  · intro m ret passed r t res hm ih
    have hi : ¬ Inside s e r := fun h ↦ hm (h.meets hse)
    simp only [ih, blocked_cons hi, List.flatMap_cons, carve_eq_self hm, List.append_assoc,
      List.singleton_append]
    split <;> rfl
  · intro m ret passed r t res ho hm hi ih
    have hort := (ordered_append'.mp ho).2.1
    have hno := hm.no_inside hort
    have hno' : ∀ x ∈ r :: t, ¬ Inside s e x := List.forall_mem_cons.mpr ⟨hi, hno⟩
    rw [ih, if_neg (not_blocked hno), if_neg (not_blocked hno'), List.flatMap_cons,
      List.append_assoc]
  · intro m ret passed r t ho hi hc
    rw [if_pos ⟨hc, r, List.mem_cons_self, hi⟩]
    rfl
  · intro m ret passed r t ho hi hc
    have hort := (ordered_append'.mp ho).2.1
    rw [if_neg fun h ↦ hc h.1, List.flatMap_cons, flatMap_carve_eq_self (hi.alone hort)]
    rfl

theorem unmapLoop_ret (hse : s < e) (passed : List Region) (m : State) (ret : ℤ)
    (ho : Ordered (passed ++ t)) (hf : ∀ r ∈ t, r.addr + r.len < 2 ^ 32) :
    (unmapLoop s e m ret passed t).1 =
      if Blocked s e (passed ++ t).length t ∨ ∀ r ∈ t, ¬ Meets s e r then ret else 0 := by
  refine unmapLoop_induction' (P := fun _ ret passed t res ↦ res.1 =
    if Blocked s e (passed ++ t).length t ∨ ∀ r ∈ t, ¬ Meets s e r then ret else 0)
    hse ?_ ?_ ?_ ?_ ?_ m ret ho hf
  · intro m ret passed
    simp
  · intro m ret passed r t res hm ih
    have hi : ¬ Inside s e r := fun h ↦ hm (h.meets hse)
    rw [ih]
    simp only [blocked_cons hi, List.forall_mem_cons, hm, not_false_eq_true, true_and,
      List.append_assoc, List.singleton_append]
  · intro m ret passed r t res ho hm hi ih
    have hno := hm.no_inside (ordered_append'.mp ho).2.1
    rw [ih, ite_self, if_neg]
    rintro (h | h)
    · exact not_blocked (List.forall_mem_cons.mpr ⟨hi, hno⟩) h
    · exact h r List.mem_cons_self hm
  · intro m ret passed r t ho hi hc
    rw [if_pos (.inl ⟨hc, r, List.mem_cons_self, hi⟩)]
  · intro m ret passed r t ho hi hc
    rw [if_neg]
    rintro (h | h)
    · exact hc h.1
    · exact h r List.mem_cons_self (hi.meets hse)

end Loop

theorem pageMap_carve {s e : ℕ} (hse : s < e) (t : List Region) :
    pageMap (t.flatMap (carve s e)) = without (pageMap t) s e := by
  funext x
  refine tagAt_flatMap (fun r _ ↦ carve_covered hse x) fun r _ p hp ↦ ?_
  rw [(carve_within hp).2.2.1, (carve_within hp).2.2.2]

/-- The table of a state, and no entries before the layer is initialised. -/
structure WellFormed (m : State) : Prop where
  tidy : Tidy m.regions
  nonempty : ∀ r ∈ m.regions, 0 < r.len
  unready : m.ready = false → m.regions = []

theorem meets_iff_page {m : State} (hm : WellFormed m) {s e : ℕ} (hs : s % 0x1000 = 0)
    (hse : s < e) : (∀ r ∈ m.regions, ¬ Meets s e r) ↔
      ∀ p, p % 0x1000 = 0 → s ≤ p → p < e → ¬ Covered m.regions p := by
  constructor
  · rintro h p - hsp hpe ⟨r, hr, hlo, hhi⟩
    exact h r hr ⟨lt_of_le_of_lt hsp hhi, lt_of_le_of_lt hlo hpe⟩
  · rintro h r hr ⟨hlo, hhi⟩
    have hpos := hm.nonempty r hr
    have hal := (hm.tidy.aligned r hr).1
    by_cases hsr : s ≤ r.addr
    · exact h r.addr hal hsr hhi ⟨r, hr, le_rfl, Nat.lt_add_of_pos_right hpos⟩
    · exact h s hs le_rfl hse ⟨r, hr, le_of_not_ge hsr, hlo⟩

section Call

variable {m : State} {addr len : ℕ}

theorem mmanUnmap_eq (hl : pageAlign len ≠ 0) (hr : m.ready = true) :
    mmanUnmap m addr len =
      ((unmapLoop addr (addU addr (pageAlign len)) m.lock (-1) [] m.regions).1,
        (unmapLoop addr (addU addr (pageAlign len)) m.lock (-1) [] m.regions).2.unlock) := by
  simp [mmanUnmap, hl, hr]

theorem mmanUnmap_zero (h : pageAlign len = 0 ∨ m.ready = false) :
    mmanUnmap m addr len = (-1, m) := by
  rcases h with h | h <;> simp [mmanUnmap, h]

theorem mmanUnmap_regions (ht : Tidy m.regions) (hu : m.ready = false → m.regions = [])
    (hl : pageAlign len ≠ 0) (hw : addr + pageAlign len < 2 ^ 32) :
    (mmanUnmap m addr len).2.regions =
      if Blocked addr (addr + pageAlign len) m.regions.length m.regions then m.regions
      else m.regions.flatMap (carve addr (addr + pageAlign len)) := by
  cases hr : m.ready with
  | false => simp [mmanUnmap_zero (.inr hr), hu hr]
  | true =>
    rw [mmanUnmap_eq hl hr, addU, Nat.mod_eq_of_lt hw]
    simpa using unmapLoop_regions (by omega) [] m.lock (-1) ht.ordered ht.fits

theorem mmanUnmap_ret (ht : Tidy m.regions) (hu : m.ready = false → m.regions = [])
    (hl : pageAlign len ≠ 0) (hw : addr + pageAlign len < 2 ^ 32) :
    (mmanUnmap m addr len).1 =
      if Blocked addr (addr + pageAlign len) m.regions.length m.regions ∨
        ∀ r ∈ m.regions, ¬ Meets addr (addr + pageAlign len) r then -1 else 0 := by
  cases hr : m.ready with
  | false => simp [mmanUnmap_zero (.inr hr), hu hr]
  | true =>
    rw [mmanUnmap_eq hl hr, addU, Nat.mod_eq_of_lt hw]
    simpa using unmapLoop_ret (by omega) [] m.lock (-1) ht.ordered ht.fits

/-- `__mman_unmap` takes the pages of the range out of the table. It fails when there are none,
and when it would have to split an entry of a full table; then the table stays as it is. -/
theorem mmanUnmap_refines (hm : WellFormed m) (ha : addr % 0x1000 = 0) (hl : 0 < len)
    (hw : addr + roundUp len < 2 ^ 32) :
    ((mmanUnmap m addr len).1 = 0 → pageMap (mmanUnmap m addr len).2.regions =
      without (pageMap m.regions) addr (addr + roundUp len)) ∧
    ((mmanUnmap m addr len).1 = -1 ↔
      (∀ p, p % 0x1000 = 0 → addr ≤ p → p < addr + roundUp len → ¬ Covered m.regions p) ∨
      m.regions.length = maxRegions ∧ ∃ r ∈ m.regions, Inside addr (addr + roundUp len) r) ∧
    ((mmanUnmap m addr len).1 = -1 → (mmanUnmap m addr len).2.regions = m.regions) ∧
    ((mmanUnmap m addr len).1 = 0 ∨ (mmanUnmap m addr len).1 = -1) := by
  have hlen := le_roundUp len
  have hse : addr < addr + roundUp len := by omega
  have hal : pageAlign len = roundUp len := pageAlign_eq (by omega)
  have hl' : pageAlign len ≠ 0 := by omega
  rw [← hal] at hw hse ⊢
  have hb : (m.regions.length = maxRegions ∧
      ∃ r ∈ m.regions, Inside addr (addr + pageAlign len) r) ↔
      Blocked addr (addr + pageAlign len) m.regions.length m.regions :=
    and_congr_left fun _ ↦ ⟨fun h ↦ h.ge, fun h ↦ le_antisymm hm.tidy.count h⟩
  rw [← meets_iff_page hm ha hse, hb, mmanUnmap_ret hm.tidy hm.unready hl' hw,
    mmanUnmap_regions hm.tidy hm.unready hl' hw]
  by_cases h₁ : Blocked addr (addr + pageAlign len) m.regions.length m.regions
  · rw [if_pos (.inl h₁), if_pos h₁]
    exact ⟨fun h ↦ absurd h (by decide), ⟨fun _ ↦ .inr h₁, fun _ ↦ rfl⟩, fun _ ↦ rfl, .inr rfl⟩
  · by_cases h₂ : ∀ r ∈ m.regions, ¬ Meets addr (addr + pageAlign len) r
    · rw [if_pos (.inr h₂), if_neg h₁, flatMap_carve_eq_self h₂]
      exact ⟨fun h ↦ absurd h (by decide), ⟨fun _ ↦ .inl h₂, fun _ ↦ rfl⟩, fun _ ↦ rfl, .inr rfl⟩
    · rw [if_neg (not_or.mpr ⟨h₁, h₂⟩), if_neg h₁, pageMap_carve hse]
      exact ⟨fun _ ↦ rfl, ⟨fun h ↦ absurd h (by decide), fun h ↦ absurd h (not_or.mpr ⟨h₂, h₁⟩)⟩,
        fun h ↦ absurd h (by decide), .inl rfl⟩

end Call

def threePages : State :=
  { initMman false fun _ ↦ 0 with
    regions := [⟨0x81000000, 0x3000, -1, 3⟩]
    vmUid := 1
    vmBase := 0x81000000 }

theorem threePages_wellFormed : WellFormed threePages :=
  ⟨⟨by simp [threePages, Ordered], by decide, by decide, by decide⟩, by decide, by decide⟩

theorem mmanUnmap_refines_threePages :
    (mmanUnmap threePages 0x81001000 1).1 = 0 ∧
    pageMap (mmanUnmap threePages 0x81001000 1).2.regions =
      without (pageMap threePages.regions) 0x81001000 0x81002000 := by
  have hret : (mmanUnmap threePages 0x81001000 1).1 = 0 := by decide
  exact ⟨hret, (mmanUnmap_refines threePages_wellFormed (by decide) (by decide) (by decide)).1 hret⟩

end SceLibcPosix.Mman
