import SceLibcPosix.Descriptor.Polling

namespace SceLibcPosix.Descriptor

open Errno VitaError Programs

/-- The questions that move the bytes of a message pipe, or may delete one. -/
def KernelAsk.MovesPipe : KernelAsk → Prop
  | .transfer _ (.receiveMsgPipe _ _) | .transfer _ (.sendMsgPipe _ _) | .close _ => True
  | _ => False

def FdCall.Streams : FdCall → Prop
  | read _ _ | write _ _ => True
  | _ => False

/-- A call on the table `t` that leaves the bytes of all message pipes where they are. -/
def still (t : Table) : Rules Ask Ask.Answer Unit where
  may _
    | .kernel q => ¬ q.MovesPipe
    | _ => True
  can := (alone t).can
  next _ _ _ := ()

def Still {α : Type} (t : Table) (p : Call α) : Prop := p.Obeys (still t) () fun _ _ ↦ True

section

variable {α β : Type} {net : NetErrno → ℤ} {t : Table} {p q : Call α} {f : α → Call β} {i : Entry}
  {d : DescriptorTranslation} {fd : ℤ} {P : DescriptorTypes → Prop}

theorem still_pure (a : α) : Still t (pure a : Call α) := trivial

theorem still_fault : Still t (fault : Call α) := ⟨trivial, fun x ↦ x.elim⟩

theorem Still.bind (hp : Still t p) (hf : ∀ a, Still t (f a)) : Still t (p >>= f) :=
  Program.obeys_bind.mpr (Program.Obeys.mono hp fun a _ _ ↦ hf a)

theorem Still.map (hp : Still t p) (f : α → β) : Still t (f <$> p) := hp.bind fun _ ↦ still_pure _

theorem Still.ite {c : Prop} [Decidable c] (hp : Still t p) (hq : Still t q) :
    Still t (if c then p else q) := by
  split
  · exact hp
  · exact hq

theorem still_kernel {q : KernelAsk} (hq : ¬ q.MovesPipe) : Still t (kernel q) :=
  ⟨hq, fun _ _ ↦ trivial⟩

theorem Still.drop {f : ℤ → Call β} (hf : ∀ ret, Still t (f ret)) :
    Still t (Descriptor.drop i >>= f) := ⟨trivial, fun ret _ ↦ hf ret⟩

theorem still_use (q : Routine) : Still t (use i d q) := still_kernel id

theorem still_onPath (q : Routine) (c : PathCall) : Still t (onPath i d q c) :=
  (still_use q).bind fun _ ↦ still_kernel id

theorem still_withFd (hfd : OfType t fd P) {absent : Call α}
    {body : Entry → DescriptorTranslation → Call α} (ha : Still t absent)
    (hb : ∀ i d, P d.type → Still t (body i d)) : Still t (withFd fd absent body) := by
  refine ⟨trivial, fun x hx ↦ ?_⟩
  cases x with
  | none => exact ha
  | some i =>
    obtain ⟨⟨s, j⟩, hopen, rfl⟩ := Option.map_eq_some_iff.mp hx.symm
    refine ⟨trivial, fun (d : DescriptorTranslation) hd ↦ hb j d ?_⟩
    have htype : d.type = (t.pool j).type := hd
    rw [htype]
    exact hfd s j hopen

theorem still_any {absent : Call α} {body : Entry → DescriptorTranslation → Call α}
    (ha : Still t absent) (hb : ∀ i d, Still t (body i d)) : Still t (withFd fd absent body) :=
  still_withFd ofType_true ha fun i d _ ↦ hb i d

theorem still_handle (fd : ℤ) {q : KernelAsk} (hq : ¬ q.MovesPipe) (a : α) (f : q.Answer → α) :
    Still t (kernel (.fhTell fd) >>= fun pos : ℤ ↦
      if pos < 0 then pure a else kernel q >>= fun ret ↦ pure (f ret) : Call α) :=
  .bind (still_kernel id) fun _ ↦ .ite (still_pure _)
    (.bind (still_kernel hq) fun _ ↦ still_pure _)

theorem Plain.Positioned.still {c : Plain} {file io : ℤ → Request} (hc : c.Positioned file io)
    (hhandle : c.handle = none) (hfile : ∀ i n, ¬ (KernelAsk.transfer i (file n)).MovesPipe)
    (hio : ∀ i n, ¬ (KernelAsk.transfer i (io n)).MovesPipe) (fd : ℤ) :
    Still t (c.steps net fd) := by
  unfold Plain.steps
  refine still_any ?_ fun i d ↦ .bind ?_ fun _ ↦ .drop fun _ ↦ still_pure _
  · rw [hhandle]
    exact still_pure _
  · cases hentry : c.entry d with
    | none => exact still_pure _
    | some r =>
      refine .bind (still_kernel ?_) fun _ ↦ still_pure _
      rcases hc.asked hentry with ⟨-, -, hq⟩ | ⟨-, -, hq⟩
      · exact hq ▸ hfile _ _
      · exact hq ▸ hio _ _

theorem still_vector (hfd : OfType t fd fun type ↦ type = .FILE ∨ type = .DIRECTORY)
    {v : VectorCall} (hv : ∀ i n, ¬ (KernelAsk.transfer i (v.fios n)).MovesPipe)
    (mem : ℕ → UInt8) (iov : List (ℕ × ℕ)) : Still t (v.steps net mem fd iov) := by
  unfold VectorCall.steps
  refine still_withFd hfd ?_ fun i d hP ↦ .bind ?_ fun _ ↦ .drop fun _ ↦ still_pure _
  · cases (v.plain 0).handle with
    | none => exact still_pure _
    | some q => exact still_handle fd (hv _ _) _ _
  · rcases hP with htype | htype
    · rw [htype]
      exact .bind (still_kernel (hv _ _)) fun _ ↦ still_pure _
    · rw [htype]
      exact still_pure _

theorem still_fcntl (fd : ℤ) (cmd : FcntlCmd) (arg : ℕ) : Still t (fcntl net fd cmd arg) := by
  refine .ite (.ite (still_pure _) ⟨trivial, fun x _ ↦ ?_⟩)
    (still_any (still_pure _) fun i d ↦ .ite (.drop fun _ ↦ still_pure _)
      (.ite ?_ (.ite ?_ (.drop fun _ ↦ still_pure _))))
  · cases x <;> trivial
  · exact .bind (still_kernel id) fun _ ↦ .drop fun _ ↦ still_pure _
  · exact .bind (still_use _) fun _ ↦ .drop fun _ ↦ still_pure _

theorem still_toDateTime (ts : Timespec) : Still t (toDateTime ts) := by
  unfold toDateTime
  cases ts.nsec with
  | value n => exact .bind (still_kernel id) fun _ ↦ still_pure _
  | UTIME_NOW | UTIME_OMIT => exact still_kernel id

theorem still_newTimes (times : Option (Timespec × Timespec)) : Still t (newTimes times) := by
  cases times with
  | none => exact .bind (still_kernel id) fun _ ↦ still_pure _
  | some p =>
    exact .bind (still_toDateTime _) fun r ↦ .ite (still_pure _)
      (.bind (still_toDateTime _) fun _ ↦ still_pure _)

theorem still_utimensat (fd : ℤ) (times : Option (Timespec × Timespec)) :
    Still t (utimensat net fd times) := by
  refine still_any (still_pure _) fun i d ↦ .bind ?_ fun ret ↦
    .ite (.drop fun _ ↦ still_pure _) (.bind (still_newTimes times) fun r ↦ ?_)
  · cases d.type with
    | DIRECTORY => exact still_onPath _ _
    | TTY | FILE => exact still_use _
    | SOCKET | PIPE => exact still_pure _
  · cases r with
    | error ret => exact .drop fun _ ↦ still_pure _
    | ok t => exact .bind (still_onPath _ _) fun _ ↦ .drop fun _ ↦ still_pure _

theorem still_fchmod (fd : ℤ) (mode : ℕ) : Still t (fchmod net fd mode) := by
  refine still_any (still_pure _) fun i d ↦ .bind ?_ fun ret ↦
    .ite (.drop fun _ ↦ still_pure _) (.bind ?_ fun _ ↦ .drop fun _ ↦ still_pure _)
  all_goals
    cases d.type with
    | FILE | DIRECTORY | TTY => exact still_onPath _ _
    | SOCKET | PIPE => exact still_pure _

theorem still_rewinddir (dirp : Option Dir) : Still t (rewinddir net dirp) := by
  cases dirp with
  | none => exact still_pure _
  | some dir =>
    exact still_any (still_pure _) fun i d ↦ .bind (still_use _) fun _ ↦
      .bind (still_kernel id) fun _ ↦ .ite (.drop fun _ ↦ still_pure _)
        (.bind (still_use _) fun _ ↦ ⟨trivial, fun _ _ ↦ Still.drop fun _ ↦ still_pure _⟩)

theorem still_readdir (dirp : Option Dir) : Still t (readdir net dirp) := by
  cases dirp with
  | none => exact still_pure _
  | some dir =>
    exact still_any (still_pure _) fun i d ↦ .bind (still_kernel id) fun r ↦
      .drop fun _ ↦ .ite (still_pure _) (.ite still_fault (.ite (still_pure _) (still_pure _)))

theorem still_pollFd (eid : ℤ) (n : ℕ) (p : PollFd) : Still t (pollFd eid n p) := by
  refine .ite (still_pure _) (.ite (still_pure _) (still_any ?_ fun i d ↦ ?_))
  · exact .bind (still_kernel id) fun pos ↦ .ite (still_pure _) (still_pure _)
  · exact .ite (.drop fun _ ↦ still_pure _) (.bind (still_use _) fun _ ↦ still_pure _)

theorem still_pollLoop (eid : ℤ) (n : ℕ) (pfd : List PollFd) : Still t (pollLoop eid n pfd) := by
  induction pfd generalizing n with
  | nil => exact still_pure _
  | cons p pfd ih =>
    exact .bind (still_pollFd eid n p) fun _ ↦ .bind (ih (n + 1)) fun _ ↦ still_pure _

theorem still_dropAll (locks : List Entry) : Still t (dropAll locks) := by
  induction locks with
  | nil => exact still_pure _
  | cons i locks ih => exact .drop fun _ ↦ ih

theorem still_poll (pfd : List PollFd) (timeout : ℤ) : Still t (poll net pfd timeout) := by
  refine .ite (still_pure _) (.ite (.bind (still_kernel id) fun _ ↦ still_pure _) ?_)
  exact .bind (still_kernel id) fun eid ↦ .ite (still_pure _)
    (.bind (still_pollLoop eid 0 pfd) fun r ↦ .bind (still_kernel id) fun nev ↦
      .bind (still_kernel id) fun _ ↦ .bind (still_dropAll _) fun _ ↦ still_pure _)

theorem still_selectLoop (eid : ℤ) (sets : FdSets) (fds : List ℕ) :
    Still t (selectLoop eid sets fds) := by
  have hone : ∀ i, Still t (selectFd eid sets i) := fun i ↦ .ite (still_pure _)
    (still_any (still_pure _) fun _ d ↦ .ite (.drop fun _ ↦ still_pure _)
      (.bind (still_use _) fun _ ↦ still_pure _))
  induction fds with
  | nil => exact still_pure _
  | cons i fds ih => exact .bind (hone i) fun lock ↦ .bind ih fun locks ↦ still_pure _

theorem still_markAll (sets : FdSets) (res : ℤ) (events : List EpollEvent) :
    Still t (markAll sets res events) := by
  have hset : ∀ on fd set, Still t (fdSetIf on fd set) := by
    intro on fd set
    refine .ite ?_ (still_pure _)
    cases set with
    | none => exact still_fault
    | some set => exact still_pure _
  induction events generalizing sets res with
  | nil => exact still_pure _
  | cons e events ih =>
    have hmark : Still t (markEvent sets e) :=
      .bind (hset _ _ _) fun _ ↦ .bind (hset _ _ _) fun _ ↦
        .bind (hset _ _ _) fun _ ↦ still_pure _
    exact .bind hmark fun r ↦ ih _ _

theorem still_select (nfds : ℤ) (sets : FdSets) (timeout : Option (ℤ × ℤ)) :
    Still t (select net nfds sets timeout) := by
  refine .ite (still_pure _) (.ite ?_ ?_)
  · exact .ite (.bind (still_kernel id) fun _ ↦ still_pure _) (still_pure _)
  · refine .bind (still_kernel id) fun eid ↦ .ite (still_pure _) ?_
    refine .bind (still_selectLoop eid sets _) fun locks ↦ .bind (still_kernel id) fun nev ↦ ?_
    refine .bind ?_ fun r ↦ .bind (still_kernel id) fun _ ↦
      .bind (still_dropAll locks) fun _ ↦ still_pure _
    cases nev with
    | error n => exact still_pure _
    | ok events => exact .bind (still_markAll _ _ _) fun _ ↦ still_pure _

theorem still_socketCall (s : ℤ) (q : Routine) (value : ℤ → ℤ) :
    Still t (socketCall net s q value) :=
  still_any (still_pure _) fun _ _ ↦ .bind (still_use _) fun _ ↦ .drop fun _ ↦ still_pure _

/-- Of the calls that take a descriptor, all but `read` and `write` leave the pipes alone. -/
theorem FdCall.still {c : FdCall} (hc : ¬ c.Streams)
    (hfd : ∀ fd ∈ c.descriptor, OfType t fd c.Takes) : Still t (c.steps net) := by
  cases c with
  | read | write => exact absurd trivial hc
  | pread fd len off =>
    exact ((preadPlain_positioned len off).still rfl (fun _ _ ↦ id) (fun _ _ ↦ id) fd).map _
  | pwrite fd bytes off =>
    exact ((pwritePlain_positioned bytes off).still rfl (fun _ _ ↦ id) (fun _ _ ↦ id) fd).map _
  | readv | writev | preadv | pwritev =>
    exact (still_vector (hfd _ rfl) (fun _ _ ↦ id) _ _).map _
  | lseek fd off dir =>
    refine .bind (still_any (still_handle fd id _ _) fun i d ↦ .bind ?_ fun _ ↦
      .drop fun _ ↦ still_pure _) fun ret ↦ ?_
    · cases d.type with
      | FILE => exact still_use _
      | _ => exact still_pure _
    · cases ret <;> exact still_pure _
  | fsync fd =>
    refine still_any (still_pure _) fun i d ↦ .bind ?_ fun _ ↦ .drop fun _ ↦ still_pure _
    cases d.type with
    | DIRECTORY => exact still_onPath _ _
    | FILE => exact still_use _
    | TTY | SOCKET | PIPE => exact still_pure _
  | ftruncate fd length =>
    refine still_any (still_pure _) fun i d ↦ .bind ?_ fun _ ↦ .drop fun _ ↦ still_pure _
    cases d.type with
    | FILE => exact still_use _
    | _ => exact still_pure _
  | fstat fd =>
    refine .bind (still_any (still_handle fd id _ _) fun i d ↦ .bind ?_ fun _ ↦
      .drop fun _ ↦ still_pure _) fun ret ↦ ?_
    · cases d.type with
      | DIRECTORY => exact still_onPath _ _
      | FILE => exact still_use _
      | TTY | SOCKET | PIPE => exact still_pure _
    · cases ret <;> exact still_pure _
  | fstatvfs fd =>
    refine still_any (still_pure _) fun i d ↦ ?_
    cases d.type with
    | TTY | SOCKET | PIPE => exact .drop fun _ ↦ still_pure _
    | FILE | DIRECTORY => exact .bind (still_onPath _ _) fun _ ↦ .drop fun _ ↦ still_pure _
  | fchmod fd mode => exact still_fchmod fd mode
  | fchdir fd =>
    refine still_any (still_pure _) fun i d ↦ ?_
    cases d.type with
    | TTY | FILE | SOCKET | PIPE => exact .drop fun _ ↦ still_pure _
    | DIRECTORY => exact .bind (still_onPath _ _) fun _ ↦ .drop fun _ ↦ still_pure _
  | utimensat fd times => exact still_utimensat fd times
  | readdir dirp => exact (still_readdir dirp).map _
  | rewinddir dirp => exact (still_rewinddir dirp).map _
  | fcntl fd cmd arg => exact still_fcntl fd cmd arg
  | poll pfd timeout => exact (still_poll pfd timeout).map _
  | select nfds sets timeout => exact (still_select nfds sets timeout).map _
  | getsockopt =>
    exact (still_any (still_pure _) fun _ _ ↦ .ite (.drop fun _ ↦ still_pure _)
      (.bind (still_kernel id) fun _ ↦ .drop fun _ ↦ still_pure _)).map _
  | setsockopt =>
    exact still_any (still_pure _) fun _ _ ↦ .ite (.drop fun _ ↦ still_pure _)
      (.bind (still_use _) fun _ ↦ .drop fun _ ↦ still_pure _)
  | socketCall s c => cases c <;> exact still_socketCall _ _ _

end

section Runs

variable {σ α τ : Type} {net : NetErrno → ℤ} {K : (q : KernelAsk) → σ → q.Answer × σ}
  {t t' : Table} {k k' : σ} {p : Call α} {a : α} {queue : σ → τ}

theorem Still.run (ht : InUse t) (hn : Neutral p) (hp : Still t p)
    (hother : ∀ q k, ¬ q.MovesPipe → queue (K q k).2 = queue k)
    (h : p.run (serve net K) (t, k) = some (a, t', k')) : queue k' = queue k := by
  let rel (r : Multiset Entry × Unit) (x : Table × σ) : Prop := Kept t r.1 x.1 ∧ queue x.2 = queue k
  have hstep : ∀ r x q y x', rel r x → (holding.prod (still t)).may r q →
      serve net K q x = some (y, x') →
      (holding.prod (still t)).can r q y ∧ rel ((holding.prod (still t)).next r q y) x' := by
    rintro r ⟨t₁, k₁⟩ q y ⟨t₂, k₂⟩ ⟨hkept, hqueue⟩ hmay hx
    obtain ⟨hy, hnext⟩ := Kept.serve ht hkept hmay.1 hx
    refine ⟨⟨trivial, hy⟩, hnext, ?_⟩
    cases q with
    | kernel q =>
      obtain ⟨-, hs⟩ := Prod.mk.inj (Option.some.inj hx)
      obtain ⟨-, rfl⟩ := Prod.mk.inj hs
      exact (hother q k₁ hmay.2).trans hqueue
    | drop i =>
      obtain ⟨-, hs⟩ := Prod.mk.inj (Option.some.inj ((hkept.held.serve_drop hmay.1).symm.trans hx))
      obtain ⟨-, rfl⟩ := Prod.mk.inj hs
      exact hqueue
    | fault => cases hx
    | grab | load | storeUid | duplicate | pass =>
      obtain ⟨-, hs⟩ := Prod.mk.inj (Option.some.inj hx)
      obtain ⟨-, rfl⟩ := Prod.mk.inj hs
      exact hqueue
  obtain ⟨_, -, -, hqueue⟩ := ((hn 0).prod hp).run rel (t := (t, k)) ⟨kept_refl t, rfl⟩ hstep h
  exact hqueue

theorem FdCall.run_still {c : FdCall} {out : Outcome} (ht : InUse t) (hc : ¬ c.Streams)
    (hfd : ∀ fd ∈ c.descriptor, OfType t fd c.Takes)
    (hother : ∀ q k, ¬ q.MovesPipe → queue (K q k).2 = queue k)
    (h : (c.steps net).run (serve net K) (t, k) = some (out, t', k')) : queue k' = queue k := by
  by_cases hdup : c.Duplicates
  · cases c with
    | fcntl fd cmd arg =>
      obtain rfl : cmd = .F_DUPFD := hdup
      change (Descriptor.fcntl net fd .F_DUPFD arg).run _ _ = _ at h
      rw [fcntl_dupfd] at h
      split at h
      · obtain ⟨-, hs⟩ := Prod.mk.inj (Option.some.inj h)
        obtain ⟨-, rfl⟩ := Prod.mk.inj hs
        rfl
      · simp only [Program.run_ask, serve, Option.bind_some] at h
        generalize duplicateDescriptor t fd arg = res at h
        obtain ⟨_ | _, t₁⟩ := res
        all_goals
          obtain ⟨-, hs⟩ := Prod.mk.inj (Option.some.inj h)
          obtain ⟨-, rfl⟩ := Prod.mk.inj hs
          rfl
    | _ => exact hdup.elim
  · exact (FdCall.still hc hfd).run ht (FdCall.neutral hdup) hother h

end Runs

end SceLibcPosix.Descriptor
