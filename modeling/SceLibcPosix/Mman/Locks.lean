import SceLibcPosix.Mman.Runs

namespace SceLibcPosix.Mman

/-- `__mman_prot_of` with the section under the mutex. -/
def lockedProtOf (m : State) (addr : ℕ) : BitVec 32 × State :=
  if !m.ready then (-1, m)
  else
    let m := m.lock
    match regionFind m.regions addr with
    | none => (-1, m.unlock)
    | some h => (h.entry.prot, m.unlock)

/-- `__mman_mapped` with the section under the mutex. -/
def lockedMapped (m : State) (addr len : ℕ) : Bool × State :=
  if !m.ready then (false, m)
  else
    let m := m.lock
    (mappedFrom m.regions (pageAlign (addU addr len)) addr, m.unlock)

inductive LayerCall
  | request (q : Request)
  | protOf (addr : ℕ)
  | mapped (addr len : ℕ)
deriving DecidableEq, Repr

def LayerCall.run (m : State) (k : Answers) : LayerCall → State
  | request q => q.run m k
  | protOf addr => (lockedProtOf m addr).2
  | mapped addr len => (lockedMapped m addr len).2

section

variable {m : State} {k : Answers}

theorem lockedProtOf_eq (addr : ℕ) : lockedProtOf m addr = (mmanProtOf m addr, m) := by
  unfold lockedProtOf mmanProtOf
  by_cases hready : (!m.ready) = true
  · rw [if_pos hready, if_pos hready]
  · rw [if_neg hready, if_neg hready]
    dsimp only
    cases hfind : regionFind m.lock.regions addr with
    | none =>
      have hsame : regionFind m.regions addr = none := hfind
      rw [hsame]
      rfl
    | some h =>
      have hsame : regionFind m.regions addr = some h := hfind
      rw [hsame]
      rfl

theorem lockedMapped_eq (addr len : ℕ) : lockedMapped m addr len = (mmanMapped m addr len, m) := by
  unfold lockedMapped mmanMapped
  cases hready : m.ready with
  | true => rfl
  | false => rfl

theorem releaseReservation_held (m : State) (uid : ℤ) :
    (releaseReservation m uid).held = m.held := by
  unfold releaseReservation
  split
  · rfl
  · split <;> rfl

theorem unmapLoop_held (s e : ℕ) (m : State) (ret : ℤ) (passed t : List Region) :
    (unmapLoop s e m ret passed t).2.held = m.held := by
  induction t generalizing m ret passed with
  | nil => rfl
  | cons r t ih =>
    have hcall : ∀ c : KuCall, (if 0 ≤ r.uid then m.call c else m).held = m.held := by
      intro c
      split <;> rfl
    rw [unmapLoop]
    extract_lets us ue m'
    have hm' : m'.held = m.held := hcall _
    split
    · exact ih m ret _
    · split
      · rw [ih, releaseReservation_held]
        exact hm'
      · split
        · exact (ih m' 0 _).trans hm'
        · split
          · exact (ih m' 0 _).trans hm'
          · split
            · exact hm'
            · exact hm'

theorem LayerCall.held (c : LayerCall) : (c.run m k).held = m.held := by
  cases c with
  | protOf addr => exact congrArg (·.2.held) (lockedProtOf_eq addr)
  | mapped addr len => exact congrArg (·.2.held) (lockedMapped_eq addr len)
  | request q =>
    simp only [LayerCall.run]
    cases q with
    | map hint len prot =>
      have hout := mmanMap_outcome m k hint len prot
      simp only [Request.run]
      generalize mmanMap m k hint len prot = res at hout ⊢
      cases hout with
      | refused | commitFailed | tableFull | mapped => rfl
      | poolFailed | poolMapped => exact vmPoolInit_held m k
    | unmap addr len =>
      simp only [Request.run, mmanUnmap]
      split
      · rfl
      · have hloop := unmapLoop_held addr (addU addr (pageAlign len)) m.lock (-1) [] m.regions
        dsimp only
        rw [State.unlock_held, hloop]
        rfl
    | resize addr oldLen newLen =>
      have hout := mmanResize_outcome m addr oldLen newLen
      simp only [Request.run]
      generalize mmanResize m addr oldLen newLen = res at hout ⊢
      cases hout with
      | refused | same | grown => rfl
      | shrunk h =>
        dsimp only
        split <;> rfl
    | protect addr len prot =>
      simp only [Request.run, mmanProtect]
      split <;> rfl
    | discard addr len =>
      have hout := mmanDiscard_outcome m k addr len
      simp only [Request.run]
      generalize mmanDiscard m k addr len = res at hout ⊢
      cases hout with
      | refused | commitFailed | recommitted | cleared => rfl

end

end SceLibcPosix.Mman
