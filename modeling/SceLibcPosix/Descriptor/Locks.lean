import SceLibcPosix.Descriptor.Runs
import SceLibcPosix.Mman.Locks

namespace SceLibcPosix.Descriptor

open Errno VitaError Relation

/-- `__descriptor_ref_count`, where `__fdmap[fd]` points to an entry. -/
def descriptorRefCount (t : Table) (fd : ℤ) : Option (ℤ × Table) :=
  let t := t.lock
  (openAt t fd).map fun p ↦ ((t.pool p.2).refCount, t.unlock)

def dup2 (net : NetErrno → ℤ) (t : Table) (oldfd newfd r : ℤ) : Except ℤ Slot × Table :=
  match slotOf newfd with
  | none => (.error EBADF, t)
  | some s =>
    match duplicateDescriptor2 net t oldfd s r with
    | (none, t) => (.error EBADF, t)
    | (some fd, t) => (.ok fd, t)

inductive TableCall
  | acquire
  | release (fd r : ℤ)
  | duplicate (fd minfd : ℤ)
  | duplicate2 (oldfd : ℤ) (newfd : Slot) (r : ℤ)
  | refCount (fd : ℤ)
  | grab (fd : ℤ)
  | drop (i : Entry) (r : ℤ)
deriving DecidableEq, Repr

def TableCall.run (net : NetErrno → ℤ) (t : Table) : TableCall → Option Table
  | acquire => some (acquireDescriptor t).2
  | release fd r => some (releaseDescriptor net t fd r).2
  | duplicate fd minfd => some (duplicateDescriptor t fd minfd).2
  | duplicate2 oldfd newfd r => some (duplicateDescriptor2 net t oldfd newfd r).2
  | refCount fd => (descriptorRefCount t fd).map Prod.snd
  | grab fd => some (fdGrab t fd).2
  | drop i r => some (fdDrop net t i r).2

/-- An open descriptor is made a duplicate of itself. -/
def TableCall.Same (t : Table) : TableCall → Prop
  | duplicate2 oldfd newfd _ => oldfd = newfd.val ∧ isFdValid t oldfd = true
  | _ => False

section

variable {net : NetErrno → ℤ} {t t' : Table}

theorem ReleaseOutcome.held {fd r : ℤ} {res : ℤ × Table} (h : ReleaseOutcome net t fd r res) :
    res.2.held = t.held := by
  cases h <;> rfl

theorem Duplicate2Outcome.held {oldfd r : ℤ} {newfd : Slot} {res : Option Slot × Table}
    (h : Duplicate2Outcome net t oldfd newfd r res) :
    res.2.held = t.held ↔ ¬ (oldfd = newfd.val ∧ isFdValid t oldfd = true) := by
  cases h with
  | refused h =>
    refine iff_of_true rfl fun hsame ↦ ?_
    rw [isFdValid, h] at hsame
    cases hsame.2
  | same i h =>
    refine iff_of_false (Nat.succ_ne_self _) (not_not.mpr ⟨(openAt_eq_some.mp h).1, ?_⟩)
    rw [isFdValid, h]
    rfl
  | busy s i h hs res hres =>
    refine iff_of_true hres.held fun hsame ↦ hs (Fin.ext ?_)
    have := (openAt_eq_some.mp h).1
    omega
  | moved s i h hs res hres =>
    refine iff_of_true hres.held fun hsame ↦ hs (Fin.ext ?_)
    have := (openAt_eq_some.mp h).1
    omega

/-- Only a descriptor that is made a duplicate of itself keeps the mutex. -/
theorem TableCall.held {c : TableCall} (h : c.run net t = some t') :
    t'.held = t.held ↔ ¬ c.Same t := by
  cases c with
  | acquire =>
    obtain rfl := Option.some.inj h
    have hout := acquireDescriptor_outcome t
    generalize acquireDescriptor t = res at hout
    cases hout <;> exact iff_of_true rfl id
  | release fd r =>
    obtain rfl := Option.some.inj h
    exact iff_of_true (releaseDescriptor_outcome net t fd r).held id
  | duplicate fd minfd =>
    obtain rfl := Option.some.inj h
    have hout := duplicateDescriptor_outcome t fd minfd
    generalize duplicateDescriptor t fd minfd = res at hout
    cases hout <;> exact iff_of_true rfl id
  | duplicate2 oldfd newfd r =>
    obtain rfl := Option.some.inj h
    exact (duplicateDescriptor2_outcome net t oldfd newfd r).held
  | refCount fd =>
    obtain ⟨⟨n, t₁⟩, hp, rfl⟩ := Option.map_eq_some_iff.mp h
    obtain ⟨p, -, hp⟩ := Option.map_eq_some_iff.mp hp
    obtain ⟨-, rfl⟩ := Prod.mk.inj hp
    exact iff_of_true rfl id
  | grab fd =>
    obtain rfl := Option.some.inj h
    have hout := fdGrab_outcome t fd
    generalize fdGrab t fd = res at hout
    cases hout <;> exact iff_of_true rfl id
  | drop i r =>
    obtain rfl := Option.some.inj h
    have hout := fdDrop_outcome net t i r
    generalize fdDrop net t i r = res at hout
    cases hout <;> exact iff_of_true rfl id

theorem dup2_held (oldfd newfd r : ℤ) : (dup2 net t oldfd newfd r).2.held = t.held ↔
    ¬ (oldfd = newfd ∧ isFdValid t oldfd = true) := by
  unfold dup2
  cases hslot : slotOf newfd with
  | none =>
    refine iff_of_true rfl ?_
    rintro ⟨rfl, hvalid⟩
    rw [isFdValid, openAt, hslot] at hvalid
    cases hvalid
  | some s =>
    have hs : newfd = s.val := by
      unfold slotOf at hslot
      split at hslot
      · rw [← Option.some.inj hslot]
        dsimp only
        omega
      · cases hslot
    have hheld := (duplicateDescriptor2_outcome net t oldfd s r).held
    rw [← hs] at hheld
    rw [← hheld]
    dsimp only
    rcases duplicateDescriptor2 net t oldfd s r with ⟨_ | fd, t'⟩
    · rfl
    · rfl

/-- What one thread does: it calls a function of one of the two layers, or does something else,
which is not done under either mutex. -/
inductive ThreadStep (net : NetErrno → ℤ) : Table × Mman.State → Table × Mman.State → Prop
  | table (t : Table) (m : Mman.State) (c : TableCall) (t' : Table) (h : c.run net t = some t')
    (hc : ¬ c.Same t) : ThreadStep net (t, m) (t', m)
  | layer (t : Table) (m : Mman.State) (k : Mman.Answers) (c : Mman.LayerCall) :
    ThreadStep net (t, m) (t, c.run m k)
  | other (t t' : Table) (m m' : Mman.State) (ht : t'.held = t.held) (hm : m'.held = m.held) :
    ThreadStep net (t, m) (t', m')

/-- Each function releases the mutex it takes, except for a descriptor that is made a duplicate of
itself, and a thread that does no such thing never keeps a mutex. -/
theorem locks_released (net : NetErrno → ℤ) :
    (∀ (t t' : Table) (c : TableCall), c.run net t = some t' →
      (t'.held = t.held ↔ ¬ c.Same t)) ∧
    (∀ (m : Mman.State) (k : Mman.Answers) (c : Mman.LayerCall), (c.run m k).held = m.held) ∧
    ∀ (stdin stdout stderr : ℤ) (haveKubridge : Bool) (mem : ℕ → UInt8) (t : Table)
      (m : Mman.State), ReflTransGen (ThreadStep net)
        (initFd stdin stdout stderr, Mman.initMman haveKubridge mem) (t, m) →
      t.held = 0 ∧ m.held = 0 := by
  refine ⟨fun t t' c h ↦ c.held h, fun m k c ↦ c.held, ?_⟩
  intro stdin stdout stderr haveKubridge mem t m h
  have hrun : ∀ p, ReflTransGen (ThreadStep net)
      (initFd stdin stdout stderr, Mman.initMman haveKubridge mem) p →
      p.1.held = 0 ∧ p.2.held = 0 := by
    intro p hp
    induction hp with
    | refl => exact ⟨rfl, rfl⟩
    | tail _ hs ih =>
      cases hs with
      | table t m c t' hrun hc => exact ⟨((c.held hrun).mpr hc).trans ih.1, ih.2⟩
      | layer t m k c => exact ⟨ih.1, c.held.trans ih.2⟩
      | other t t' m m' ht hm => exact ⟨ht.trans ih.1, hm.trans ih.2⟩
  exact hrun (t, m) h

end

/-- Standard input made a duplicate of standard error, then a page mapped. -/
theorem locks_released_dup2 :
    (duplicateDescriptor2 0 (initFd 1 2 3) 2 0 0).2.held = 0 ∧
      (Mman.mmanMap (Mman.initMman false fun _ ↦ 0) Mman.poolAnswers 0 0x1000 3).2.2.held = 0 := by
  have hcall : (TableCall.duplicate2 2 0 0).run 0 (initFd 1 2 3) =
      some (duplicateDescriptor2 0 (initFd 1 2 3) 2 0 0).2 := rfl
  have hdup : ThreadStep 0 (initFd 1 2 3, Mman.initMman false fun _ ↦ 0) (_, _) :=
    .table _ _ _ _ hcall fun h ↦ absurd h.1 (by decide)
  have hmap := @ThreadStep.layer 0 (duplicateDescriptor2 0 (initFd 1 2 3) 2 0 0).2
    (Mman.initMman false fun _ ↦ 0) Mman.poolAnswers (.request (.map 0 0x1000 3))
  exact (locks_released 0).2.2 1 2 3 false (fun _ ↦ 0) _ _ (.tail (.single hdup) hmap)

/-- Standard input made a duplicate of itself. -/
theorem dup2_keeps_mutex : dup2 0 (initFd 1 2 3) 0 0 0 = (.ok 0, (initFd 1 2 3).lock) ∧
    (dup2 0 (initFd 1 2 3) 0 0 0).2.held = 1 := by
  have hdup : dup2 0 (initFd 1 2 3) 0 0 0 = (.ok 0, (initFd 1 2 3).lock) := rfl
  exact ⟨hdup, by rw [hdup]; rfl⟩

end SceLibcPosix.Descriptor
