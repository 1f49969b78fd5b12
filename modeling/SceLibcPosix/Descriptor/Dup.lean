import SceLibcPosix.Descriptor.Neutral

namespace SceLibcPosix.Descriptor

open Errno VitaError Programs

/-- `dup`. It reads `errno`, whose value before the call is a parameter. -/
def dup (errno oldfd : ℤ) : Call Outcome := do
  match ← ask (.duplicate oldfd 0) with
  | .error e =>
    -- `__duplicate_descriptor` sets no error number for a descriptor that is not open
    return if e.getD errno ≠ EMFILE then fail EBADF else ⟨-1, e⟩
  | .ok fd => return ⟨fd.val, some 0⟩

def Outcome.after (out : Outcome) (errno : ℤ) : ℤ := out.errno.getD errno

def Room (t : Table) (minfd : ℤ) : Prop := ∃ s : Slot, max 3 minfd ≤ s.val ∧ t.fdmap s = none

/-- What a duplicate of `fd` has to come to: the result, `errno` and the table. -/
inductive Duplicates (t : Table) (fd minfd : ℤ) : ℤ → ℤ → Table → Prop
  | refused (h : openAt t fd = none) : Duplicates t fd minfd (-1) EBADF t
  | full (h : openAt t fd ≠ none) (hfull : ¬ Room t minfd) : Duplicates t fd minfd (-1) EMFILE t
  | shared (s : Slot) (i : Entry) (h : openAt t fd = some (s, i)) (s' : Slot)
    (hs' : FirstFree t (max 3 minfd) s') :
    Duplicates t fd minfd s'.val 0 ((t.setSlot s' (some i)).addRef i 1)

section

variable {σ : Type} (net : NetErrno → ℤ) (K : (q : KernelAsk) → σ → q.Answer × σ) (t : Table)
  (k : σ) (c : ℤ → Call Outcome) (fd minfd errno errno' : ℤ)

/-- A call, which may read `errno`, makes a duplicate as it should. -/
def MakesDuplicate : Prop :=
  ∃ out t', (c errno).run (serve net K) (t, k) = some (out, t', k) ∧
    Duplicates t fd minfd out.ret (out.after errno) t'

/-- Two runs of a call that differ in `errno` before it end alike. -/
def SameEnd : Prop :=
  ∀ out t₁ k₁ out' t₂ k₂, (c errno).run (serve net K) (t, k) = some (out, t₁, k₁) →
    (c errno').run (serve net K) (t, k) = some (out', t₂, k₂) →
    out.ret = out'.ret ∧ out.after errno = out'.after errno' ∧ t₁ = t₂

end

section

variable {σ : Type} {net : NetErrno → ℤ} {K : (q : KernelAsk) → σ → q.Answer × σ} {t t' : Table}
  {k : σ} {c : ℤ → Call Outcome} {fd minfd errno errno' e : ℤ} {arg : ℕ}
  {f : ℤ → Except (Option ℤ) Slot → Outcome} {res : Except (Option ℤ) Slot × Table}

def dupOutcome (errno : ℤ) : Except (Option ℤ) Slot → Outcome
  | .error e => if e.getD errno ≠ EMFILE then fail EBADF else ⟨-1, e⟩
  | .ok fd => ⟨fd.val, some 0⟩

def fcntlOutcome : Except (Option ℤ) Slot → Outcome
  | .error _ => fail EBADF
  | .ok fd => ⟨fd.val, some 0⟩

/-- A call that asks for a duplicate and makes something of the result. -/
def duplicating (fd minfd : ℤ) (f : Except (Option ℤ) Slot → Outcome) : Call Outcome :=
  .ask (Ask.duplicate fd minfd) fun x ↦ .ret (f x)

theorem dup_eq : dup errno fd = duplicating fd 0 (dupOutcome errno) :=
  congrArg (Program.ask (Ask.duplicate fd 0)) (funext fun x ↦ by cases x <;> rfl)

theorem fcntl_eq (harg : arg < MAX_OPEN_FILES) :
    fcntl net fd .F_DUPFD arg = duplicating fd arg fcntlOutcome := by
  rw [fcntl_dupfd, if_neg (not_le.mpr harg)]
  exact congrArg (Program.ask (Ask.duplicate fd arg)) (funext fun x ↦ by cases x <;> rfl)

theorem duplicating_run {f : Except (Option ℤ) Slot → Outcome} :
    (duplicating fd minfd f).run (serve net K) (t, k) =
      some (f (duplicateDescriptor t fd minfd).1, (duplicateDescriptor t fd minfd).2, k) := rfl

theorem duplicating_ends {f : Except (Option ℤ) Slot → Outcome} {out : Outcome} {k' : σ}
    (h : (duplicating fd minfd f).run (serve net K) (t, k) = some (out, t', k')) :
    out = f (duplicateDescriptor t fd minfd).1 ∧ t' = (duplicateDescriptor t fd minfd).2 := by
  rw [duplicating_run] at h
  obtain ⟨hout, hs⟩ := Prod.mk.inj (Option.some.inj h)
  exact ⟨hout.symm, (Prod.mk.inj hs).1.symm⟩

theorem openAt_ne_none {s : Slot} {i : Entry} (h : openAt t fd = some (s, i)) :
    openAt t fd ≠ none := by
  rw [h]
  exact Option.some_ne_none _

theorem makesDuplicate_iff (hc : ∀ errno, c errno = duplicating fd minfd (f errno)) :
    MakesDuplicate net K t k c fd minfd errno ↔
      Duplicates t fd minfd (f errno (duplicateDescriptor t fd minfd).1).ret
        ((f errno (duplicateDescriptor t fd minfd).1).after errno)
        (duplicateDescriptor t fd minfd).2 := by
  unfold MakesDuplicate
  rw [hc]
  constructor
  · rintro ⟨out, t', hrun, h⟩
    obtain ⟨rfl, rfl⟩ := duplicating_ends hrun
    exact h
  · exact fun h ↦ ⟨_, _, rfl, h⟩

theorem sameEnd_iff (hc : ∀ errno, c errno = duplicating fd minfd (f errno)) :
    SameEnd net K t k c errno errno' ↔
      (f errno (duplicateDescriptor t fd minfd).1).ret =
        (f errno' (duplicateDescriptor t fd minfd).1).ret ∧
      (f errno (duplicateDescriptor t fd minfd).1).after errno =
        (f errno' (duplicateDescriptor t fd minfd).1).after errno' := by
  unfold SameEnd
  rw [hc, hc]
  constructor
  · intro h
    obtain ⟨hret, herr, -⟩ := h _ _ _ _ _ _ rfl rfl
    exact ⟨hret, herr⟩
  · rintro ⟨hret, herr⟩ out t₁ k₁ out' t₂ k₂ h h'
    obtain ⟨rfl, rfl⟩ := duplicating_ends h
    obtain ⟨rfl, rfl⟩ := duplicating_ends h'
    exact ⟨hret, herr, rfl⟩

theorem Duplicates.failed (h : Duplicates t fd minfd (-1) e t') :
    e = if openAt t fd = none then EBADF else EMFILE := by
  generalize hr : (-1 : ℤ) = ret at h
  cases h with
  | refused h => rw [if_pos h]
  | full h => rw [if_neg h]
  | shared s i h s' => omega

theorem dupOutcome_refused (errno : ℤ) : (dupOutcome errno (.error none)).ret = -1 ∧
    (dupOutcome errno (.error none)).after errno = if errno = EMFILE then EMFILE else EBADF := by
  by_cases herr : errno = EMFILE
  · subst herr
    exact ⟨rfl, rfl⟩
  · have hout : dupOutcome errno (.error none) = fail EBADF := if_pos herr
    rw [hout, if_neg herr]
    exact ⟨rfl, rfl⟩

theorem DuplicateOutcome.dup_iff (h : DuplicateOutcome t fd minfd res) :
    Duplicates t fd minfd (dupOutcome errno res.1).ret ((dupOutcome errno res.1).after errno)
      res.2 ↔ openAt t fd ≠ none ∨ errno ≠ EMFILE := by
  cases h with
  | refused h =>
    obtain ⟨hret, hafter⟩ := dupOutcome_refused errno
    rw [or_iff_right (not_not.mpr h), hret, hafter]
    by_cases herr : errno = EMFILE
    · rw [if_pos herr]
      refine iff_of_false (fun hdup ↦ ?_) (not_not.mpr herr)
      have hbadf := hdup.failed
      rw [if_pos h] at hbadf
      cases hbadf
    · rw [if_neg herr]
      exact iff_of_true (.refused h) herr
  | full s i h hfull =>
    have hopen := openAt_ne_none h
    exact iff_of_true (.full hopen fun ⟨s', hs', hfree⟩ ↦ hfull s' hs' hfree) (.inl hopen)
  | shared s i h s' hs' =>
    exact iff_of_true (.shared s i h s' hs') (.inl (openAt_ne_none h))

theorem DuplicateOutcome.fcntl_iff (h : DuplicateOutcome t fd minfd res) :
    Duplicates t fd minfd (fcntlOutcome res.1).ret ((fcntlOutcome res.1).after errno) res.2 ↔
      openAt t fd = none ∨ Room t minfd := by
  cases h with
  | refused h => exact iff_of_true (.refused h) (.inl h)
  | full s i h hfull =>
    have hopen := openAt_ne_none h
    refine iff_of_false (fun hdup ↦ ?_) ?_
    · have hmfile := hdup.failed
      rw [if_neg hopen] at hmfile
      cases hmfile
    · rintro (hno | ⟨s', hs', hfree⟩)
      · exact hopen hno
      · exact hfull s' hs' hfree
  | shared s i h s' hs' =>
    exact iff_of_true (.shared s i h s' hs') (.inr ⟨s', hs'.above, hs'.free⟩)

theorem DuplicateOutcome.dup_same_iff (h : DuplicateOutcome t fd minfd res) :
    ((dupOutcome errno res.1).ret = (dupOutcome errno' res.1).ret ∧
      (dupOutcome errno res.1).after errno = (dupOutcome errno' res.1).after errno') ↔
      openAt t fd ≠ none ∨ (errno = EMFILE ↔ errno' = EMFILE) := by
  cases h with
  | refused h =>
    obtain ⟨hret, hafter⟩ := dupOutcome_refused errno
    obtain ⟨hret', hafter'⟩ := dupOutcome_refused errno'
    have hne : EMFILE ≠ EBADF := by decide
    rw [or_iff_right (not_not.mpr h), hret, hret', hafter, hafter', and_iff_right rfl]
    by_cases herr : errno = EMFILE <;> by_cases herr' : errno' = EMFILE <;>
      simp [herr, herr', hne, hne.symm]
  | full s i h hfull =>
    exact iff_of_true ⟨rfl, rfl⟩ (.inl (openAt_ne_none h))
  | shared s i h s' hs' =>
    exact iff_of_true ⟨rfl, rfl⟩ (.inl (openAt_ne_none h))

end

/-- `dup` fails as it should unless an earlier call has left `EMFILE`, `fcntl` unless the table is
full. -/
theorem duplicates_iff {σ : Type} (net : NetErrno → ℤ) (K : (q : KernelAsk) → σ → q.Answer × σ)
    (t : Table) (k : σ) (fd : ℤ) {arg : ℕ} (harg : arg < MAX_OPEN_FILES) (errno errno' : ℤ) :
    (MakesDuplicate net K t k (fun errno ↦ dup errno fd) fd 0 errno ↔
      openAt t fd ≠ none ∨ errno ≠ EMFILE) ∧
    (MakesDuplicate net K t k (fun _ ↦ fcntl net fd .F_DUPFD arg) fd arg errno ↔
      openAt t fd = none ∨ Room t arg) ∧
    (SameEnd net K t k (fun errno ↦ dup errno fd) errno errno' ↔
      openAt t fd ≠ none ∨ (errno = EMFILE ↔ errno' = EMFILE)) ∧
    SameEnd net K t k (fun _ ↦ fcntl net fd .F_DUPFD arg) errno errno' := by
  have hdup (errno : ℤ) : dup errno fd = duplicating fd 0 (dupOutcome errno) := dup_eq
  have hfcntl (_ : ℤ) : fcntl net fd .F_DUPFD arg = duplicating fd arg fcntlOutcome :=
    fcntl_eq harg
  refine ⟨?_, ?_, ?_, (sameEnd_iff hfcntl).mpr ⟨rfl, ?_⟩⟩
  · rw [makesDuplicate_iff hdup]
    exact (duplicateDescriptor_outcome t fd 0).dup_iff
  · rw [makesDuplicate_iff hfcntl]
    exact (duplicateDescriptor_outcome t fd arg).fcntl_iff
  · rw [sameEnd_iff hdup]
    exact (duplicateDescriptor_outcome t fd 0).dup_same_iff
  · cases (duplicateDescriptor t fd arg).1 <;> rfl

theorem initFd_stdin : openAt (initFd 0 1 2) 0 ≠ none :=
  openAt_ne_none (rfl : openAt (initFd 0 1 2) 0 = some (0, 0))

theorem duplicates_iff_stdin :
    MakesDuplicate 0 (fun q k ↦ (q.quiet, k)) (initFd 0 1 2) () (fun errno ↦ dup errno 0) 0 0
      EMFILE ∧
    MakesDuplicate 0 (fun q k ↦ (q.quiet, k)) (initFd 0 1 2) () (fun _ ↦ fcntl 0 0 .F_DUPFD 5) 0
      (5 : ℕ) EMFILE ∧
    SameEnd 0 (fun q k ↦ (q.quiet, k)) (initFd 0 1 2) () (fun errno ↦ dup errno 0) EMFILE 0 := by
  obtain ⟨hdup, hfcntl, hsame, -⟩ :=
    duplicates_iff 0 (fun q k ↦ (q.quiet, k)) (initFd 0 1 2) () 0
      (by decide : 5 < MAX_OPEN_FILES) EMFILE 0
  exact ⟨hdup.mpr (.inl initFd_stdin), hfcntl.mpr (.inr ⟨5, by decide, rfl⟩),
    hsame.mpr (.inl initFd_stdin)⟩

def fullTable : Table := { initFd 0 1 2 with fdmap := fun _ ↦ some 0 }

/-- `dup` reports the `EMFILE` of an earlier call for a descriptor that is not open, and `fcntl`
takes a full table for a descriptor that is not open. -/
theorem dup_stale_errno :
    ¬ MakesDuplicate 0 (fun q k ↦ (q.quiet, k)) (initFd 0 1 2) () (fun errno ↦ dup errno 5) 5 0
      EMFILE ∧
    ¬ SameEnd 0 (fun q k ↦ (q.quiet, k)) (initFd 0 1 2) () (fun errno ↦ dup errno 5) EMFILE 0 ∧
    ¬ MakesDuplicate 0 (fun q k ↦ (q.quiet, k)) fullTable () (fun _ ↦ fcntl 0 0 .F_DUPFD 0) 0
      (0 : ℕ) 0 := by
  have hno : openAt (initFd 0 1 2) 5 = none := rfl
  have hyes : openAt fullTable 0 ≠ none :=
    openAt_ne_none (rfl : openAt fullTable 0 = some (0, 0))
  refine ⟨fun h ↦ ?_, fun h ↦ ?_, fun h ↦ ?_⟩
  · rw [makesDuplicate_iff (f := dupOutcome) fun _ ↦ dup_eq,
      (duplicateDescriptor_outcome _ _ _).dup_iff] at h
    exact h.elim (absurd hno) fun h ↦ h rfl
  · rw [sameEnd_iff (f := dupOutcome) fun _ ↦ dup_eq,
      (duplicateDescriptor_outcome _ _ _).dup_same_iff] at h
    exact h.elim (absurd hno) fun h ↦ absurd (h.mp rfl) (by decide)
  · rw [makesDuplicate_iff (f := fun _ ↦ fcntlOutcome) fun _ ↦ fcntl_eq (by decide),
      (duplicateDescriptor_outcome _ _ _).fcntl_iff] at h
    rcases h with h | ⟨s, -, hs⟩
    · exact hyes h
    · cases hs

end SceLibcPosix.Descriptor
