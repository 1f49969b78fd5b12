import SceLibcPosix.Mman.Unmap

namespace SceLibcPosix.Mman

open Spans

structure Reservation where
  uid : ℤ
  base : ℕ
  len : ℕ
deriving DecidableEq, Repr

/-- The blocks reserved and not yet freed, by the calls made so far. -/
def reserved : List KuCall → List Reservation
  | [] => []
  | .reserve uid base len :: cs => ⟨uid, base, len⟩ :: reserved cs
  | .free uid :: cs => (reserved cs).filter (·.uid ≠ uid)
  | .commit _ _ :: cs | .decommit _ _ :: cs => reserved cs

/-- Whether an address is committed, by the calls made so far. -/
def committed : List KuCall → ℕ → Bool
  | [], _ => false
  | .commit addr len :: cs, x => (addr ≤ x ∧ x < addr + len) || committed cs x
  | .decommit addr len :: cs, x => !(addr ≤ x ∧ x < addr + len) && committed cs x
  | .reserve _ _ _ :: cs, x | .free _ :: cs, x => committed cs x

/-- Some entry is part of the block. -/
def Listed (t : List Region) (uid : ℤ) : Prop := ∃ r ∈ t, r.uid = uid

theorem uidListed_iff {t : List Region} {uid : ℤ} : uidListed t uid = true ↔ Listed t uid := by
  simp [uidListed, Listed]

@[simp] theorem listed_append {t₁ t₂ : List Region} {uid : ℤ} :
    Listed (t₁ ++ t₂) uid ↔ Listed t₁ uid ∨ Listed t₂ uid := by
  simp only [Listed, List.mem_append, or_and_right, exists_or]

@[simp] theorem listed_cons {r : Region} {t : List Region} {uid : ℤ} :
    Listed (r :: t) uid ↔ r.uid = uid ∨ Listed t uid := by simp [Listed]

@[simp] theorem listed_nil {uid : ℤ} : ¬ Listed [] uid := by simp [Listed]

theorem listed_middle {t₁ t₂ : List Region} {r : Region} {uid : ℤ} :
    Listed (t₁ ++ r :: t₂) uid ↔ r.uid = uid ∨ Listed (t₁ ++ t₂) uid := by
  rw [listed_append, listed_cons, or_left_comm, ← listed_append]

theorem listed_regionInsert {t t' : List Region} {addr len : ℕ} {uid u : ℤ} {prot : BitVec 32}
    (h : regionInsert t addr len uid prot = some t') : Listed t' u ↔ uid = u ∨ Listed t u := by
  simp only [Listed, regionInsert_mem h, or_and_right, exists_or, exists_eq_left]

section Loop

variable {s e : ℕ} {r : Region} {t passed : List Region}

theorem listed_carve {uid : ℤ} : Listed (carve s e r) uid ↔ carve s e r ≠ [] ∧ r.uid = uid := by
  constructor
  · rintro ⟨p, hp, rfl⟩
    exact ⟨List.ne_nil_of_mem hp, (carve_within hp).2.2.1.symm⟩
  · rintro ⟨hne, rfl⟩
    obtain ⟨p, hp⟩ := List.exists_mem_of_ne_nil _ hne
    exact ⟨p, hp, (carve_within hp).2.2.1⟩

theorem reserved_decommitPart (m : State) :
    reserved (decommitPart s e r m).calls = reserved m.calls := by
  unfold decommitPart
  split <;> rfl

theorem committed_decommitPart (hse : s < e) (hf : r.addr + r.len < 2 ^ 32) (h : Meets s e r)
    (m : State) (x : ℕ) :
    committed (decommitPart s e r m).calls x = true ↔
      committed m.calls x = true ∧ ¬ (0 ≤ r.uid ∧ Covers r x ∧ s ≤ x ∧ x < e) := by
  unfold Meets at h
  unfold decommitPart
  split
  · next hu =>
    have hx : (clipLo s r ≤ x ∧ x < clipLo s r + (clipHi e r - clipLo s r)) ↔
        Covers r x ∧ s ≤ x ∧ x < e := by
      rw [covers_iff]
      unfold clipLo clipHi
      split <;> split <;> omega
    have hsub : subU (clipHi e r) (clipLo s r) = clipHi e r - clipLo s r := by
      refine subU_eq ?_ ?_ <;> unfold clipHi
      · split <;> omega
      · unfold clipLo
        split <;> split <;> omega
    rw [hsub]
    simp only [State.call_calls, committed, hx, Bool.and_eq_true, Bool.not_eq_true',
      decide_eq_false_iff_not, hu, true_and]
    exact and_comm
  · next hu => simp [hu]

theorem reserved_release (m : State) (uid : ℤ) (ρ : Reservation) :
    ρ ∈ reserved (releaseReservation m uid).calls ↔
      ρ ∈ reserved m.calls ∧ ¬ (0 ≤ ρ.uid ∧ ρ.uid = uid ∧ ¬ Listed m.regions uid) := by
  unfold releaseReservation
  split
  · next hu =>
    have hn : ¬ (0 ≤ ρ.uid ∧ ρ.uid = uid ∧ ¬ Listed m.regions uid) := by
      rintro ⟨h, rfl, -⟩
      omega
    simp [hn]
  · next hu =>
    split
    · next hl => simp [uidListed_iff.mp hl]
    · next hl =>
      rw [uidListed_iff] at hl
      simp only [State.call_calls, reserved, List.mem_filter, hl, not_false_eq_true, and_true,
        decide_eq_true_eq]
      refine and_congr_right fun _ ↦ ⟨fun h ↦ fun h' ↦ h h'.2, fun h h' ↦ h ⟨?_, h'⟩⟩
      omega

theorem committed_release (m : State) (uid : ℤ) :
    committed (releaseReservation m uid).calls = committed m.calls := by
  unfold releaseReservation
  split
  · rfl
  · split
    · rfl
    · funext x
      rfl

theorem leaves_or {own gone before after : Prop} (h : after → before) :
    ¬ (own ∧ gone ∧ ¬ before) ∧ ¬ (own ∧ before ∧ ¬ after) ↔
      ¬ (own ∧ (gone ∨ before) ∧ ¬ after) := by
  constructor
  · rintro ⟨h₁, h₂⟩ ⟨hown, hgone | hbefore, hafter⟩
    · by_cases hb : before
      · exact h₂ ⟨hown, hb, hafter⟩
      · exact h₁ ⟨hown, hgone, hb⟩
    · exact h₂ ⟨hown, hbefore, hafter⟩
  · refine fun hn ↦ ⟨fun ⟨hown, hgone, hb⟩ ↦ ?_, fun ⟨hown, hb, hafter⟩ ↦ ?_⟩
    · exact hn ⟨hown, .inl hgone, hb ∘ h⟩
    · exact hn ⟨hown, .inr hb, hafter⟩

/-- The loop frees a block exactly when the last entry of the block leaves the table. -/
theorem unmapLoop_reserved (passed : List Region) (m : State) (ret : ℤ)
    (hf : ∀ r ∈ t, r.addr + r.len < 2 ^ 32) :
    (∀ uid, Listed (unmapLoop s e m ret passed t).2.regions uid → Listed (passed ++ t) uid) ∧
    ∀ ρ, ρ ∈ reserved (unmapLoop s e m ret passed t).2.calls ↔ ρ ∈ reserved m.calls ∧
      ¬ (0 ≤ ρ.uid ∧ Listed (passed ++ t) ρ.uid ∧
        ¬ Listed (unmapLoop s e m ret passed t).2.regions ρ.uid) := by
  refine unmapLoop_induction (P := fun m _ passed t res ↦
    (∀ uid, Listed res.2.regions uid → Listed (passed ++ t) uid) ∧
    ∀ ρ, ρ ∈ reserved res.2.calls ↔ ρ ∈ reserved m.calls ∧
      ¬ (0 ≤ ρ.uid ∧ Listed (passed ++ t) ρ.uid ∧ ¬ Listed res.2.regions ρ.uid))
    ?_ ?_ ?_ ?_ ?_ m ret hf
  · intro m ret passed
    simp
  · intro m ret passed r t res _ ih
    simpa only [List.append_assoc, List.singleton_append] using ih
  · intro m ret passed r t res _ _ ih
    obtain ⟨hsub, ih⟩ := ih
    have hcarve : ∀ uid, Listed (passed ++ carve s e r ++ t) uid ↔
        (carve s e r ≠ [] ∧ r.uid = uid) ∨ Listed (passed ++ t) uid := by
      intro uid
      rw [listed_append, listed_append, listed_carve, or_assoc, or_left_comm, ← listed_append]
    refine ⟨fun uid h ↦ listed_middle.mpr (((hcarve uid).mp (hsub uid h)).imp_left And.right),
      fun ρ ↦ ?_⟩
    rw [ih, hcarve, listed_middle]
    unfold afterTrim
    split
    · next hc =>
      -- the block may go with this entry, or with a later one
      have hafter : Listed res.2.regions ρ.uid → Listed (passed ++ t) ρ.uid := fun h ↦
        ((hcarve _).mp (hsub _ h)).resolve_left fun h ↦ h.1 hc
      have hgone : (0 ≤ ρ.uid ∧ ρ.uid = r.uid ∧ ¬ Listed (passed ++ t) r.uid) ↔
          (0 ≤ ρ.uid ∧ r.uid = ρ.uid ∧ ¬ Listed (passed ++ t) ρ.uid) := by
        rw [eq_comm (a := r.uid)]
        refine and_congr_right fun _ ↦ and_congr_right fun h ↦ ?_
        rw [h]
      have hnone : ¬ (carve s e r ≠ [] ∧ r.uid = ρ.uid) := fun h ↦ h.1 hc
      rw [reserved_release, State.setRegions_calls, State.setRegions_regions,
        reserved_decommitPart, hgone, or_iff_right hnone, and_assoc, leaves_or hafter]
    · next hc =>
      rw [reserved_decommitPart, and_iff_right hc]
  · intro m ret passed r t _ _ _
    refine ⟨fun uid h ↦ h, fun ρ ↦ ?_⟩
    rw [State.setRegions_calls, reserved_decommitPart, and_iff_left]
    exact fun h ↦ h.2.2 h.2.1
  · intro m ret passed r t t' _ _ hins
    have hl : ∀ uid, Listed t' uid ↔ Listed (passed ++ r :: t) uid := by
      intro uid
      rw [listed_regionInsert hins, listed_middle, listed_middle, or_self_left]
    refine ⟨fun uid h ↦ (hl uid).mp h, fun ρ ↦ ?_⟩
    rw [State.setRegions_calls, State.setRegions_regions, reserved_decommitPart, hl, and_iff_left]
    exact fun h ↦ h.2.2 h.2.1

/-- The loop decommits the part of the range that the entries cover, whatever it returns. -/
theorem unmapLoop_committed (hse : s < e) (passed : List Region) (m : State) (ret : ℤ)
    (ho : Ordered (passed ++ t)) (hf : ∀ r ∈ t, r.addr + r.len < 2 ^ 32) (x : ℕ) :
    committed (unmapLoop s e m ret passed t).2.calls x = true ↔ committed m.calls x = true ∧
      ¬ ∃ r ∈ t, 0 ≤ r.uid ∧ Covers r x ∧ s ≤ x ∧ x < e := by
  have hcov : ∀ r : Region, ¬ Meets s e r → ¬ (0 ≤ r.uid ∧ Covers r x ∧ s ≤ x ∧ x < e) := by
    intro r hm ⟨_, hc, hx⟩
    rw [covers_iff] at hc
    unfold Meets at hm
    omega
  refine unmapLoop_induction' (P := fun m _ _ t res ↦ (∀ r ∈ t, r.addr + r.len < 2 ^ 32) →
    (committed res.2.calls x = true ↔ committed m.calls x = true ∧
      ¬ ∃ r ∈ t, 0 ≤ r.uid ∧ Covers r x ∧ s ≤ x ∧ x < e)) hse ?_ ?_ ?_ ?_ ?_ m ret ho hf hf
  · intro m ret passed _
    simp
  · intro m ret passed r t res hm ih hf
    simpa only [List.exists_mem_cons_iff, hcov r hm, false_or] using
      ih (List.forall_mem_cons.mp hf).2
  · intro m ret passed r t res _ hm _ ih hf
    obtain ⟨hfr, hft⟩ := List.forall_mem_cons.mp hf
    have hc : committed (afterTrim s e m passed r t).calls x = true ↔
        committed (decommitPart s e r m).calls x = true := by
      unfold afterTrim
      split
      · rw [committed_release]
        rfl
      · rfl
    rw [ih hft, hc, committed_decommitPart hse hfr hm, List.exists_mem_cons_iff, not_or, and_assoc]
  all_goals
    intro m ret passed r t ho hi _ hf
    have hno : ¬ ∃ r ∈ t, 0 ≤ r.uid ∧ Covers r x ∧ s ≤ x ∧ x < e := by
      rintro ⟨r', hr', h⟩
      exact hcov r' (hi.alone (ordered_append'.mp ho).2.1 r' hr') h
    rw [State.setRegions_calls,
      committed_decommitPart hse (hf r List.mem_cons_self) (hi.meets hse),
      List.exists_mem_cons_iff, not_or, and_iff_left hno]

end Loop

end SceLibcPosix.Mman
