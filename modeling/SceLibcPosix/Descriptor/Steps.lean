import SceLibcPosix.Descriptor.Calls
import SceLibcPosix.Descriptor.Outcomes

namespace SceLibcPosix.Descriptor

open Errno VitaError Programs

variable {σ : Type} {net : NetErrno → ℤ} {K : Kernel σ} {r fd : ℤ} {alloc : Bool}

/-- The kernel of the transfers as one that answers every question. -/
def Kernel.oracle (K : Kernel σ) (r : ℤ) (alloc : Bool) : (q : KernelAsk) → σ → q.Answer × σ
  | .transfer _ q, k => K.run q k
  | .fhTell fd, k => K.fhTell fd k
  | .close _, k => (r, k)
  | .malloc _, k => (alloc, k)
  | q, k => (q.quiet, k)

/-- A call step by step comes to the result and the state of the call in one. -/
def Agrees {α : Type} (p : Call (Outcome × α)) (K : Kernel σ) (net : NetErrno → ℤ) (r : ℤ)
    (alloc : Bool) (s : State σ) (ret : ℤ) (a : α) (s' : State σ) : Prop :=
  ∃ out : Outcome, p.run (serve net (K.oracle r alloc)) (s.table, s.kernel) =
    some ((out, a), s'.table, s'.kernel) ∧ out.ret = ret ∧ s'.errno = out.errno.getD s.errno

section Run

variable {α β : Type} {Q : (q : KernelAsk) → σ → q.Answer × σ} {t t' : Table} {k : σ} {i : Entry}

theorem run_grab (f : Option Entry → Call β) :
    (grab fd >>= f).run (serve net Q) (t, k) =
      (f (fdGrab t fd).1).run (serve net Q) ((fdGrab t fd).2, k) := rfl

theorem run_withFd_none (h : fdGrab t fd = (none, t')) (absent : Call α)
    (body : Entry → DescriptorTranslation → Call α) :
    (withFd fd absent body).run (serve net Q) (t, k) = absent.run (serve net Q) (t', k) := by
  rw [withFd, run_grab, h]

theorem run_withFd_some (h : fdGrab t fd = (some i, t')) (absent : Call α)
    (body : Entry → DescriptorTranslation → Call α) :
    (withFd fd absent body).run (serve net Q) (t, k) =
      (body i (t'.pool i)).run (serve net Q) (t', k) := by
  rw [withFd, run_grab, h]
  rfl

theorem run_kernel (q : KernelAsk) (f : q.Answer → Call β) :
    (kernel q >>= f).run (serve net Q) (t, k) = (f (Q q k).1).run (serve net Q) (t, (Q q k).2) :=
  rfl

theorem run_pass (p : Call β) : (ask (.pass i) >>= fun _ ↦ p).run (serve net Q) (t, k) =
    p.run (serve net Q) (t, k) := rfl

theorem fdDrop_shared (h : (t.pool i).refCount ≠ 1) (r r' : ℤ) :
    fdDrop net t i r = fdDrop net t i r' := by
  have hout := fdDrop_outcome net t i r
  have hout' := fdDrop_outcome net t i r'
  generalize fdDrop net t i r = res at hout ⊢
  generalize fdDrop net t i r' = res' at hout' ⊢
  cases hout with
  | shared =>
    cases hout' with
    | shared => rfl
    | closed h' | failed _ h' => exact absurd h' h
  | closed h' | failed _ h' => exact absurd h' h

theorem run_drop_grabbed (href : 0 < (t.pool i).refCount) (p : Call β) :
    (drop i >>= fun _ ↦ p).run (serve net Q) (t.addRef i 1, k) = p.run (serve net Q) (t, k) := by
  have hne : ((t.addRef i 1).pool i).refCount ≠ 1 := by
    rw [Table.addRef_refCount, if_pos rfl]
    omega
  have hserve : serve net Q (.drop i) (t.addRef i 1, k) =
      some ((fdDrop net (t.addRef i 1) i 0).1, t, k) := by
    simp only [serve, if_neg hne]
    rw [fdDrop_grabbed href]
  change (serve net Q (.drop i) (t.addRef i 1, k)).bind _ = _
  rw [hserve]
  rfl

theorem run_drop (f : ℤ → Call β) :
    (drop i >>= f).run (serve net (K.oracle r alloc)) (t, k) =
      (f (fdDrop net t i r).1).run (serve net (K.oracle r alloc)) ((fdDrop net t i r).2, k) := by
  have hserve : serve net (K.oracle r alloc) (.drop i) (t, k) =
      some ((fdDrop net t i r).1, (fdDrop net t i r).2, k) := by
    by_cases h : (t.pool i).refCount = 1
    · simp only [serve, if_pos h]
      rfl
    · simp only [serve, if_neg h]
      rw [fdDrop_shared h 0 r]
  change (serve net (K.oracle r alloc) (.drop i) (t, k)).bind _ = _
  rw [hserve]
  rfl

end Run

theorem finish_eq_ending (type : ErrorType) (ret : ℤ) (s : State σ) : finish net type ret s =
    ((ending net type ret).ret,
      { s with errno := (ending net type ret).errno.getD s.errno }) := by
  unfold finish ending
  split_ifs <;> rfl

theorem errno_or (a b : Option ℤ) (e : ℤ) : (a.or b).getD e = a.getD (b.getD e) := by
  cases a <;> rfl

theorem Plain.steps_agree (c : Plain) (s : State σ) :
    Agrees (c.steps net fd) K net r alloc s (c.call K net r s fd).1.1 (c.call K net r s fd).1.2
      (c.call K net r s fd).2 := by
  unfold Agrees Plain.steps Plain.call
  rcases hg : fdGrab s.table fd with ⟨_ | i, t⟩
  · rw [run_withFd_none hg]
    dsimp only
    cases c.handle with
    | none => exact ⟨_, rfl, rfl, rfl⟩
    | some q =>
      dsimp only
      rw [run_kernel]
      change ∃ out, (if (K.fhTell fd s.kernel).1 < 0 then _ else _ : Call _).run _ _ = _ ∧ _
      by_cases hpos : (K.fhTell fd s.kernel).1 < 0
      · rw [if_pos hpos, if_pos hpos]
        exact ⟨_, rfl, rfl, rfl⟩
      · rw [if_neg hpos, if_neg hpos, finish_eq_ending]
        exact ⟨_, rfl, rfl, rfl⟩
  · rw [run_withFd_some hg]
    dsimp only
    rw [finish_eq_ending]
    unfold Plain.ask
    cases c.entry (t.pool i) with
    | none =>
      rw [Program.pure_eq, Program.ret_bind, run_drop]
      exact ⟨_, rfl, rfl, rfl⟩
    | some q =>
      change ∃ out, (drop i >>= fun _ ↦ _ : Call _).run (serve net (K.oracle r alloc))
        (t, (K.run q.2 s.kernel).2) = _ ∧ _
      rw [run_drop]
      exact ⟨_, rfl, rfl, rfl⟩

theorem Plain.call_mem (c : Plain) (s : State σ) : (c.call K net r s fd).2.mem = s.mem := by
  unfold Plain.call
  rcases fdGrab s.table fd with ⟨_ | i, t⟩
  · cases c.handle with
    | none => rfl
    | some q =>
      dsimp only
      split_ifs
      · rfl
      · rw [finish_eq_ending]
  · dsimp only
    rw [finish_eq_ending]

theorem VectorCall.helperSteps_agree (v : VectorCall) (s : State σ) (iov : List (ℕ × ℕ)) :
    Agrees (v.helperSteps net s.mem fd iov) K net r alloc s (v.helper K net r alloc s fd iov).1
      (v.helper K net r alloc s fd iov).2.mem (v.helper K net r alloc s fd iov).2 := by
  unfold Agrees VectorCall.helperSteps VectorCall.helper
  cases totalFrom 0 iov with
  | none => exact ⟨_, rfl, rfl, rfl⟩
  | some bytes =>
    dsimp only
    rw [run_kernel]
    change ∃ out, (if (!alloc) = true then _ else _ : Call _).run _ _ = _ ∧ _
    by_cases halloc : (!alloc) = true
    · rw [if_pos halloc, if_pos halloc]
      exact ⟨_, rfl, rfl, rfl⟩
    · rw [if_neg halloc, if_neg halloc, Program.run_bind]
      have hplain : Agrees ((v.plain bytes).steps net fd) K net r alloc s _ _ _ :=
        (v.plain bytes).steps_agree s
      have hmem : ((v.plain bytes).call K net r s fd).2.mem = s.mem := (v.plain bytes).call_mem s
      generalize (v.plain bytes).call K net r s fd = res at hplain hmem ⊢
      obtain ⟨out, hrun, hret, herrno⟩ := hplain
      change ∃ out, Option.bind (Program.run _ _ (s.table, s.kernel)) _ = _ ∧ _
      rw [hrun]
      obtain ⟨⟨ret, data⟩, s'⟩ := res
      dsimp only at hret herrno hmem ⊢
      subst hret
      by_cases hneg : out.ret < 0
      · simp only [Option.bind_some, if_pos hneg]
        exact ⟨⟨-1, out.errno⟩, by rw [hmem]; rfl, rfl, herrno⟩
      · simp only [Option.bind_some, if_neg hneg]
        exact ⟨out, by rw [hmem]; rfl, rfl, herrno⟩

theorem VectorCall.steps_agree (v : VectorCall) (s : State σ) (iov : List (ℕ × ℕ)) :
    Agrees (v.steps net s.mem fd iov) K net r alloc s (v.call K net r alloc s fd iov).1
      (v.call K net r alloc s fd iov).2.mem (v.call K net r alloc s fd iov).2 := by
  unfold Agrees VectorCall.steps VectorCall.call
  rcases hg : fdGrab s.table fd with ⟨_ | i, t⟩
  · rw [run_withFd_none hg]
    dsimp only
    cases (v.plain 0).handle with
    | none => exact ⟨_, rfl, rfl, rfl⟩
    | some q =>
      dsimp only
      rw [run_kernel]
      change ∃ out, (if (K.fhTell fd s.kernel).1 < 0 then _ else _ : Call _).run _ _ = _ ∧ _
      by_cases hpos : (K.fhTell fd s.kernel).1 < 0
      · rw [if_pos hpos, if_pos hpos]
        exact ⟨_, rfl, rfl, rfl⟩
      · rw [if_neg hpos, if_neg hpos, finish_eq_ending]
        exact ⟨_, rfl, rfl, rfl⟩
  · rw [run_withFd_some hg]
    dsimp only
    cases htype : (t.pool i).type with
    | FILE =>
      change ∃ out, (drop i >>= fun _ ↦ _ : Call _).run (serve net (K.oracle r alloc))
        (t, (K.run (v.fios (t.pool i).sceUid) s.kernel).2) = _ ∧ _
      rw [run_drop, finish_eq_ending]
      exact ⟨_, rfl, rfl, (errno_or _ none _).symm⟩
    | DIRECTORY =>
      have hrefused : (Transfer.refused EBADF).ret = makeSceErrno EBADF := by decide
      dsimp only
      change ∃ out, (drop i >>= fun _ ↦ _ : Call _).run (serve net (K.oracle r alloc))
        (t, s.kernel) = _ ∧ _
      rw [run_drop, finish_eq_ending, hrefused]
      exact ⟨_, rfl, rfl, (errno_or (ending net .GENERIC (makeSceErrno EBADF)).errno none _).symm⟩
    | TTY | SOCKET | PIPE =>
      have hhelper : Agrees (v.helperSteps net s.mem (t.pool i).sceUid iov) K net r alloc _ _ _ _ :=
        v.helperSteps_agree { s with table := t } iov
      dsimp only
      generalize v.helper K net r alloc { s with table := t } (t.pool i).sceUid iov = res
        at hhelper ⊢
      obtain ⟨out, hrun, hret, herrno⟩ := hhelper
      obtain ⟨ret, s'⟩ := res
      subst hret
      dsimp only at hrun herrno ⊢
      rw [Program.run_bind, run_pass, Program.run_bind, hrun]
      simp only [Option.bind_some, Program.pure_eq, Program.run_ret]
      rw [run_drop, finish_eq_ending]
      exact ⟨_, rfl, rfl, (congrArg _ herrno).trans (errno_or _ _ _).symm⟩

end SceLibcPosix.Descriptor
