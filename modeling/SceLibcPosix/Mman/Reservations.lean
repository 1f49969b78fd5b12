import SceLibcPosix.Mman.Runs

namespace SceLibcPosix.Mman

open Relation

/-- The block is reserved and `sceKernelFreeMemBlock` has not been called on it since. -/
def Held (cs : List KuCall) (uid : ℤ) : Prop := ∃ ρ ∈ reserved cs, ρ.uid = uid

/-- Every block freed was reserved, and had not been freed since. -/
def FreedOnce : List KuCall → Prop
  | [] => True
  | .free uid :: cs => Held cs uid ∧ FreedOnce cs
  | .reserve _ _ _ :: cs | .commit _ _ :: cs | .decommit _ _ :: cs => FreedOnce cs

/-- The blocks that a table lists are the blocks held. -/
structure Balanced (t : List Region) (cs : List KuCall) : Prop where
  owned : ∀ uid, Listed t uid → 0 ≤ uid
  held : ∀ uid, Held cs uid ↔ Listed t uid
  once : FreedOnce cs

/-- A new block has a uid that no other block held has. -/
def Request.Fresh (m : State) (k : Answers) : Request → Prop
  | .map _ _ _ => 0 ≤ k.reserveUid → ¬ Held m.calls k.reserveUid
  | _ => True

inductive FreshStep : State → State → Prop
  | call (m : State) (k : Answers) (q : Request) (hq : q.Fresh m k) : FreshStep m (q.run m k)

section Balance

variable {t t' : List Region} {cs : List KuCall} {m : State} {k : Answers} {uid : ℤ}

theorem held_reserve {u : ℤ} {base len : ℕ} :
    Held (.reserve u base len :: cs) uid ↔ u = uid ∨ Held cs uid := by
  simp only [Held, reserved, List.mem_cons, or_and_right, exists_or, exists_eq_left]

theorem held_free {u : ℤ} : Held (.free u :: cs) uid ↔ Held cs uid ∧ uid ≠ u := by
  simp only [Held, reserved, List.mem_filter, decide_eq_true_eq]
  constructor
  · rintro ⟨ρ, ⟨hρ, hne⟩, rfl⟩
    exact ⟨⟨ρ, hρ, rfl⟩, hne⟩
  · rintro ⟨⟨ρ, hρ, rfl⟩, hne⟩
    exact ⟨ρ, ⟨hρ, hne⟩, rfl⟩

theorem Balanced.congr (h : Balanced t cs) (ht : ∀ uid, Listed t' uid ↔ Listed t uid) :
    Balanced t' cs where
  owned uid hu := h.owned uid ((ht uid).mp hu)
  held uid := (h.held uid).trans (ht uid).symm
  once := h.once

theorem Balanced.undone (h : Balanced t cs) {base len : ℕ} (hu : ¬ Held cs uid) :
    Balanced t (.free uid :: .reserve uid base len :: cs) where
  owned := h.owned
  held u := by
    rw [held_free, held_reserve, ← h.held u]
    refine ⟨fun hh ↦ hh.1.resolve_left (Ne.symm hh.2), fun hh ↦ ⟨.inr hh, ?_⟩⟩
    rintro rfl
    exact hu hh
  once := ⟨held_reserve.mpr (.inl rfl), h.once⟩

theorem Balanced.release (h : Balanced t m.calls) (hu : Listed t uid)
    (ht : ∀ u, Listed t u ↔ u = uid ∨ Listed t' u) :
    Balanced t' (releaseReservation (m.setRegions t') uid).calls := by
  have howned : ∀ u, Listed t' u → 0 ≤ u := fun u hl ↦ h.owned u ((ht u).mpr (.inr hl))
  rw [releaseReservation, if_neg (not_lt.mpr (h.owned uid hu)), State.setRegions_regions]
  by_cases hl : Listed t' uid
  · rw [if_pos (uidListed_iff.mpr hl)]
    refine h.congr fun u ↦ ⟨fun hu' ↦ (ht u).mpr (.inr hu'), fun hu' ↦ ?_⟩
    rcases (ht u).mp hu' with rfl | hu'
    · exact hl
    · exact hu'
  · rw [if_neg (fun h' ↦ hl (uidListed_iff.mp h'))]
    refine ⟨howned, fun u ↦ ?_, ⟨(h.held uid).mpr hu, h.once⟩⟩
    rw [State.call_calls, held_free, State.setRegions_calls, h.held u, ht u]
    refine ⟨fun hh ↦ hh.1.resolve_left hh.2, fun hh ↦ ⟨.inr hh, ?_⟩⟩
    rintro rfl
    exact hl hh

theorem Balanced.unmapLoop {s e : ℕ} {passed : List Region} {ret : ℤ}
    (h : Balanced (passed ++ t) m.calls) :
    Balanced (unmapLoop s e m ret passed t).2.regions (unmapLoop s e m ret passed t).2.calls := by
  induction t generalizing m ret passed with
  | nil => simpa [Mman.unmapLoop] using h
  | cons r t ih =>
    rw [Mman.unmapLoop]
    dsimp only
    generalize (if r.addr < s then s else r.addr) = us
    generalize (if e < r.stop then e else r.stop) = ue
    split
    · apply ih
      simpa using h
    have hd : Balanced (passed ++ r :: t)
        (if 0 ≤ r.uid then m.call (.decommit us (subU ue us)) else m).calls := by
      split
      · exact ⟨h.owned, h.held, h.once⟩
      · exact h
    generalize (if 0 ≤ r.uid then m.call (.decommit us (subU ue us)) else m) = m₁ at hd ⊢
    split
    · apply ih
      apply hd.release
      · simp
      · intro u
        rw [listed_middle, eq_comm (a := u)]
    split
    · apply ih
      apply hd.congr
      simp
    split
    · apply ih
      apply hd.congr
      simp
    split
    · apply hd.congr
      simp
    · next t' hins =>
      apply hd.congr
      intro u
      rw [State.setRegions_regions, listed_regionInsert hins, listed_middle, listed_middle,
        or_self_left]

theorem Balanced.mapped (hk : m.haveKubridge = true) (h : Balanced m.regions m.calls) {n : ℕ}
    {prot : BitVec 32} (hu : 0 ≤ k.reserveUid → ¬ Held m.calls k.reserveUid)
    {res : ℕ × ℤ × State} (hout : MapOutcome m k n prot res) :
    Balanced res.2.2.regions res.2.2.calls := by
  cases hout with
  | refused => exact h
  | commitFailed _ huid _ => exact h.undone (hu huid)
  | tableFull _ huid _ =>
    have hundone : Balanced m.regions
        (.free k.reserveUid :: .reserve k.reserveUid k.reserveBase n :: m.calls) :=
      h.undone (hu huid)
    exact ⟨hundone.owned, hundone.held, hundone.once⟩
  | mapped t _ _ huid hins =>
    have hl : ∀ u, Listed t u ↔ k.reserveUid = u ∨ Listed m.regions u :=
      fun _ ↦ listed_regionInsert hins
    refine ⟨fun u hu' ↦ ?_, fun u ↦ ?_, h.once⟩
    · rcases (hl u).mp hu' with rfl | hu'
      · exact huid
      · exact h.owned u hu'
    · exact held_reserve.trans ((or_congr_right (h.held u)).trans (hl u).symm)
  | poolFailed hk' => exact absurd (hk.symm.trans hk') (by decide)
  | poolMapped t hk' => exact absurd (hk.symm.trans hk') (by decide)

theorem Balanced.put (h : Balanced t cs) (hit : Hit t) {r : Region} (hr : r.uid = hit.entry.uid) :
    Balanced (hit.put r) cs := by
  apply h.congr
  intro u
  simp only [Listed, hit.mem_put, hit.mem_iff, or_and_right, exists_or, exists_eq_left, hr]

theorem Balanced.map (h : Balanced t cs) {f : Region → Region} (hf : ∀ r, (f r).uid = r.uid) :
    Balanced (t.map f) cs := by
  apply h.congr
  intro u
  simp only [Listed, List.mem_map, exists_exists_and_eq_and, hf]

theorem Balanced.step (hk : m.haveKubridge = true) (h : Balanced m.regions m.calls) {q : Request}
    (hq : q.Fresh m k) : Balanced (q.run m k).regions (q.run m k).calls := by
  cases q with
  | map hint len prot => exact h.mapped hk hq (mmanMap_outcome m k hint len prot)
  | unmap addr len =>
    simp only [Request.run, mmanUnmap]
    split
    · exact h
    · apply Balanced.unmapLoop
      exact h
  | resize addr oldLen newLen =>
    have hout := mmanResize_outcome m addr oldLen newLen
    simp only [Request.run]
    generalize mmanResize m addr oldLen newLen = res at hout ⊢
    cases hout with
    | refused => exact h
    | same => exact h
    | shrunk hit =>
      have hput : Balanced (hit.put { hit.entry with len := pageAlign newLen }) m.calls :=
        h.put hit rfl
      dsimp only
      split
      · exact ⟨hput.owned, hput.held, hput.once⟩
      · exact hput
    | grown hit => exact h.put hit rfl
  | protect addr len prot =>
    simp only [Request.run, mmanProtect]
    split
    · exact h
    · apply h.map
      intro r
      split <;> rfl
  | discard addr len =>
    have hout := mmanDiscard_outcome m k addr len
    simp only [Request.run]
    generalize mmanDiscard m k addr len = res at hout ⊢
    cases hout with
    | refused => exact h
    | commitFailed | recommitted | cleared => exact ⟨h.owned, h.held, h.once⟩

end Balance

theorem freshRun_balanced {mem : ℕ → UInt8} {m : State}
    (h : ReflTransGen FreshStep (initMman true mem) m) :
    m.ready = true ∧ m.haveKubridge = true ∧ Balanced m.regions m.calls := by
  induction h with
  | refl => exact ⟨rfl, rfl, by simp, by simp [Held, reserved], trivial⟩
  | tail _ hs ih =>
    obtain ⟨hready, hkub, hbal⟩ := ih
    cases hs with
    | call k q hq =>
      obtain ⟨hready', hkub'⟩ := run_setup _ k q
      exact ⟨hready'.trans hready, hkub'.trans hkub, hbal.step hkub hq⟩

/-- With kubridge, in every run the blocks reserved and not yet freed are those that the table
lists, and no block is freed that is not reserved. -/
theorem reservations_balanced {mem : ℕ → UInt8} {m : State}
    (h : ReflTransGen FreshStep (initMman true mem) m) :
    (∀ uid, Held m.calls uid ↔ Listed m.regions uid) ∧ FreedOnce m.calls := by
  obtain ⟨-, -, hb⟩ := freshRun_balanced h
  exact ⟨hb.held, hb.once⟩

theorem fresh_map (len : ℕ) : FreshStep (initMman true fun _ ↦ 0)
    (Request.run (initMman true fun _ ↦ 0) kuAnswers (.map 0 len 3)) := by
  refine .call _ kuAnswers (.map 0 len 3) ?_
  simp [Request.Fresh, Held, reserved]

def kuUnmapped : State :=
  Request.run (Request.run kuPages kuAnswers (.unmap 0x90001000 0x1000)) kuAnswers
    (.unmap 0x90000000 0x1000)

theorem reservations_balanced_kuUnmapped :
    (∀ uid, ¬ Held kuUnmapped.calls uid) ∧ FreedOnce kuUnmapped.calls := by
  have hrun : ReflTransGen FreshStep (initMman true fun _ ↦ 0) kuUnmapped :=
    .tail (.tail (.single (fresh_map 0x2000))
      (.call _ kuAnswers (.unmap 0x90001000 0x1000) trivial))
      (.call _ kuAnswers (.unmap 0x90000000 0x1000) trivial)
  have hempty : kuUnmapped.regions = [] := by decide +kernel
  have hb := reservations_balanced hrun
  refine ⟨fun uid hu ↦ ?_, hb.2⟩
  have hl := (hb.1 uid).mp hu
  rw [hempty] at hl
  exact listed_nil hl

end SceLibcPosix.Mman
