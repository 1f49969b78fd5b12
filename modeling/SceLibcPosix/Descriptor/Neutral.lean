import Mathlib.Data.Multiset.Count
import SceLibcPosix.Descriptor.Select
import SceLibcPosix.Descriptor.Vectored

namespace SceLibcPosix.Descriptor

open Errno VitaError Programs

inductive SocketCall
  | listen (backlog : ℤ)
  | shutdown (how : ℤ)
  | bind (addr addrlen : ℕ)
  | connect (addr addrlen : ℕ)
  | getpeername (addr addrlen : ℕ)
  | getsockname (addr addrlen : ℕ)
  | send (buf len : ℕ) (flags : ℤ)
  | sendto (buf len : ℕ) (flags : ℤ) (addr addrlen : ℕ)
  | sendmsg (msg : ℕ) (flags : ℤ)
  | recv (buf len : ℕ) (flags : ℤ)
  | recvfrom (buf len : ℕ) (flags : ℤ) (addr addrlen : ℕ)
  | recvmsg (msg : ℕ) (flags : ℤ)

def SocketCall.steps (net : NetErrno → ℤ) (s : ℤ) : SocketCall → Call Outcome
  | listen backlog => Descriptor.listen net s backlog
  | shutdown how => Descriptor.shutdown net s how
  | bind addr addrlen => Descriptor.bind' net s addr addrlen
  | connect addr addrlen => Descriptor.connect net s addr addrlen
  | getpeername addr addrlen => Descriptor.getpeername net s addr addrlen
  | getsockname addr addrlen => Descriptor.getsockname net s addr addrlen
  | send buf len flags => Descriptor.send net s buf len flags
  | sendto buf len flags addr addrlen => Descriptor.sendto net s buf len addr addrlen flags
  | sendmsg msg flags => Descriptor.sendmsg net s msg flags
  | recv buf len flags => Descriptor.recv net s buf len flags
  | recvfrom buf len flags addr addrlen => Descriptor.recvfrom net s buf len addr addrlen flags
  | recvmsg msg flags => Descriptor.recvmsg net s msg flags

/-- The calls that take a descriptor. The ones that write get the memory that they read from. -/
inductive FdCall
  | read (fd : ℤ) (len : ℕ)
  | write (fd : ℤ) (bytes : List UInt8)
  | pread (fd : ℤ) (len : ℕ) (off : ℤ)
  | pwrite (fd : ℤ) (bytes : List UInt8) (off : ℤ)
  | readv (mem : ℕ → UInt8) (fd : ℤ) (iov : List (ℕ × ℕ))
  | writev (mem : ℕ → UInt8) (fd : ℤ) (iov : List (ℕ × ℕ))
  | preadv (mem : ℕ → UInt8) (fd : ℤ) (iov : List (ℕ × ℕ)) (off : ℤ)
  | pwritev (mem : ℕ → UInt8) (fd : ℤ) (iov : List (ℕ × ℕ)) (off : ℤ)
  | lseek (fd off dir : ℤ)
  | fsync (fd : ℤ)
  | ftruncate (fd length : ℤ)
  | fstat (fd : ℤ)
  | fstatvfs (fd : ℤ)
  | fchmod (fd : ℤ) (mode : ℕ)
  | fchdir (fd : ℤ)
  | utimensat (fd : ℤ) (times : Option (Timespec × Timespec))
  | readdir (dirp : Option Dir)
  | rewinddir (dirp : Option Dir)
  | fcntl (fd : ℤ) (cmd : FcntlCmd) (arg : ℕ)
  | poll (pfd : List PollFd) (timeout : ℤ)
  | select (nfds : ℤ) (sets : FdSets) (timeout : Option (ℤ × ℤ))
  | getsockopt (sizeofTimeval : ℕ) (s level : ℤ) (optname : SockOpt) (optlen : ℕ)
  | setsockopt (sizeofTimeval : ℕ) (s level : ℤ) (optname : SockOpt) (optval : ℕ)
    (timeout : ℤ × ℤ) (optlen : ℕ)
  | socketCall (s : ℤ) (c : SocketCall)

def FdCall.steps (net : NetErrno → ℤ) : FdCall → Call Outcome
  | read fd len => Prod.fst <$> (readPlain len).steps net fd
  | write fd bytes => Prod.fst <$> (writePlain bytes).steps net fd
  | pread fd len off => Prod.fst <$> (preadPlain len off).steps net fd
  | pwrite fd bytes off => Prod.fst <$> (pwritePlain bytes off).steps net fd
  | readv mem fd iov => Prod.fst <$> (readvCall iov).steps net mem fd iov
  | writev mem fd iov => Prod.fst <$> (writevCall mem iov).steps net mem fd iov
  | preadv mem fd iov off => Prod.fst <$> (preadvCall iov off).steps net mem fd iov
  | pwritev mem fd iov off => Prod.fst <$> (pwritevCall mem iov off).steps net mem fd iov
  | lseek fd off dir => Descriptor.lseek net fd off dir
  | fsync fd => Descriptor.fsync net fd
  | ftruncate fd length => Descriptor.ftruncate net fd length
  | fstat fd => Descriptor.fstat net fd
  | fstatvfs fd => Descriptor.fstatvfs fd
  | fchmod fd mode => Descriptor.fchmod net fd mode
  | fchdir fd => Descriptor.fchdir fd
  | utimensat fd times => Descriptor.utimensat net fd times
  | readdir dirp => Prod.fst <$> Descriptor.readdir net dirp
  | rewinddir dirp => (fun r ↦ ⟨0, some r.1⟩) <$> Descriptor.rewinddir net dirp
  | fcntl fd cmd arg => Descriptor.fcntl net fd cmd arg
  | poll pfd timeout => Prod.fst <$> Descriptor.poll net pfd timeout
  | select nfds sets timeout => Prod.fst <$> Descriptor.select net nfds sets timeout
  | getsockopt sizeofTimeval s level optname optlen =>
    Prod.fst <$> Descriptor.getsockopt net sizeofTimeval s level optname optlen
  | setsockopt sizeofTimeval s level optname optval timeout optlen =>
    Descriptor.setsockopt net sizeofTimeval s level optname optval timeout optlen
  | socketCall s c => c.steps net s

def FdCall.Duplicates : FdCall → Prop
  | fcntl _ cmd _ => cmd = .F_DUPFD
  | _ => False

/-- The references that a call adds to an entry: one for a new descriptor. -/
def FdCall.added (c : FdCall) (t : Table) (out : Outcome) (i : Entry) : ℤ :=
  match c with
  | fcntl fd .F_DUPFD _ =>
    if 0 ≤ out.ret ∧ (openAt t fd).map Prod.snd = some i then 1 else 0
  | _ => 0

/-- The grabs that a call has not dropped yet. It may only drop and store to what it has grabbed,
and makes no duplicates. -/
def holding : Rules Ask Ask.Answer (Multiset Entry) where
  may g
    | .drop i | .storeUid i _ => i ∈ g
    | .duplicate _ _ => False
    | _ => True
  can _ _ _ := True
  next g
    | .grab _, some i => i ::ₘ g
    | .drop i, _ => g.erase i
    | _, _ => g

/-- A program that has grabbed `held` at its beginning and `left` at its end. -/
def Balance {α : Type} (held : List Entry) (left : α → List Entry) (p : Call α) : Prop :=
  ∀ g : Multiset Entry, p.Obeys holding (held + g) fun a g' ↦ g' = left a + g

abbrev Neutral {α : Type} (p : Call α) : Prop := Balance [] (fun _ ↦ []) p

abbrev Trace := List ((q : Ask) × q.Answer)

def grabs (i : Entry) : ((q : Ask) × q.Answer) → Bool
  | ⟨.grab _, x⟩ => x = some i
  | _ => false

def drops (i : Entry) : ((q : Ask) × q.Answer) → Bool
  | ⟨.drop j, _⟩ => j = i
  | _ => false

/-- Each grab of an entry is followed by one drop of it, and there are no other drops. -/
def Balanced (tr : Trace) : Prop := ∀ i, tr.countP (grabs i) = tr.countP (drops i) ∧
  ∀ tr', tr' <+: tr → tr'.countP (drops i) ≤ tr'.countP (grabs i)

section

variable {α β : Type} {p q : Call α} {f : α → Call β} {i : Entry} {held : List Entry}
  {left left' : α → List Entry}

theorem neutral_pure (a : α) : Neutral (pure a : Call α) := fun _ ↦ rfl

theorem neutral_kernel (q : KernelAsk) : Neutral (kernel q) := fun _ ↦ ⟨trivial, fun _ _ ↦ rfl⟩

theorem neutral_fault : Neutral (fault : Call α) := fun _ ↦ ⟨trivial, fun x ↦ x.elim⟩

theorem Balance.seq {held' : List Entry} {left' : β → List Entry} (hp : Balance held left p)
    (hf : ∀ a, Balance (left a ++ held') left' (f a)) :
    Balance (held ++ held') left' (p >>= f) := by
  intro g
  rw [← Multiset.coe_add, add_assoc]
  refine Program.obeys_bind.mpr ((hp (held' + g)).mono fun a g' hg ↦ ?_)
  rw [hg, ← add_assoc, Multiset.coe_add]
  exact hf a g

theorem Balance.bind {left' : β → List Entry} (hp : Neutral p)
    (hf : ∀ a, Balance held left' (f a)) : Balance held left' (p >>= f) := hp.seq hf

theorem Balance.ite {c : Prop} [Decidable c] (hp : Balance held left p)
    (hq : Balance held left q) : Balance held left (if c then p else q) := by
  split
  · exact hp
  · exact hq

theorem Balance.drop {left' : β → List Entry} {f : ℤ → Call β}
    (hf : ∀ ret, Balance held left' (f ret)) :
    Balance (i :: held) left' (Descriptor.drop i >>= f) := by
  intro g
  have hcons : ((i :: held : List Entry) : Multiset Entry) + g = i ::ₘ (held + g) := by
    rw [← Multiset.cons_coe, Multiset.cons_add]
  rw [hcons]
  refine ⟨Multiset.mem_cons_self i _, fun ret _ ↦ ?_⟩
  change (f ret).Obeys holding ((i ::ₘ (held + g)).erase i) _
  rw [Multiset.erase_cons_head]
  exact hf ret g

theorem Balance.store {uid : ℤ} {left' : β → List Entry} {f : Unit → Call β}
    (hf : ∀ u, Balance (i :: held) left' (f u)) :
    Balance (i :: held) left' (ask (.storeUid i uid) >>= f) :=
  fun g ↦ ⟨Multiset.mem_add.mpr (.inl (List.mem_cons_self ..)), fun u _ ↦ hf u g⟩

theorem balance_withFd {fd : ℤ} {absent : Call α} {body : Entry → DescriptorTranslation → Call α}
    (ha : Balance held left absent) (hb : ∀ i d, Balance (i :: held) left (body i d)) :
    Balance held left (withFd fd absent body) := by
  refine fun g ↦ ⟨trivial, fun x _ ↦ ?_⟩
  cases x with
  | none => exact ha g
  | some i =>
    refine ⟨trivial, fun d _ ↦ ?_⟩
    have h := hb i d g
    rwa [← Multiset.cons_coe, Multiset.cons_add] at h

theorem neutral_use (d : DescriptorTranslation) (q : Routine) : Neutral (use i d q) :=
  neutral_kernel _

theorem neutral_onPath (d : DescriptorTranslation) (q : Routine) (c : PathCall) :
    Neutral (onPath i d q c) :=
  (neutral_use d q).bind fun _ ↦ neutral_kernel _

end

section

variable {net : NetErrno → ℤ}

theorem neutral_fcntl (fd : ℤ) {cmd : FcntlCmd} (hcmd : cmd ≠ .F_DUPFD) (arg : ℕ) :
    Neutral (fcntl net fd cmd arg) := by
  rw [fcntl, if_neg hcmd]
  refine balance_withFd (neutral_pure _) fun i d ↦ .ite (.drop fun _ ↦ neutral_pure _)
    (.ite ?_ (.ite ?_ (.drop fun _ ↦ neutral_pure _)))
  · exact .bind (neutral_kernel _) fun _ ↦ .drop fun _ ↦ neutral_pure _
  · exact .bind (neutral_use _ _) fun _ ↦ .drop fun _ ↦ neutral_pure _

theorem neutral_fchmod (fd : ℤ) (mode : ℕ) : Neutral (fchmod net fd mode) := by
  refine balance_withFd (neutral_pure _) fun i d ↦ .bind ?_ fun ret ↦
    .ite (.drop fun _ ↦ neutral_pure _) (.bind ?_ fun _ ↦ .drop fun _ ↦ neutral_pure _)
  all_goals
    cases d.type with
    | FILE | DIRECTORY | TTY => exact neutral_onPath _ _ _
    | SOCKET | PIPE => exact neutral_pure _

theorem neutral_toDateTime (t : Timespec) : Neutral (toDateTime t) := by
  unfold toDateTime
  cases t.nsec with
  | value n => exact (neutral_kernel _).bind fun _ ↦ neutral_pure _
  | UTIME_NOW | UTIME_OMIT => exact neutral_kernel _

theorem neutral_newTimes (times : Option (Timespec × Timespec)) : Neutral (newTimes times) := by
  cases times with
  | none => exact (neutral_kernel _).bind fun _ ↦ neutral_pure _
  | some p =>
    exact (neutral_toDateTime _).bind fun r ↦ .ite (neutral_pure _)
      ((neutral_toDateTime _).bind fun _ ↦ neutral_pure _)

theorem neutral_utimensat (fd : ℤ) (times : Option (Timespec × Timespec)) :
    Neutral (utimensat net fd times) := by
  refine balance_withFd (neutral_pure _) fun i d ↦ .bind ?_ fun ret ↦
    .ite (.drop fun _ ↦ neutral_pure _) (.bind (neutral_newTimes times) fun r ↦ ?_)
  · cases d.type with
    | DIRECTORY => exact neutral_onPath _ _ _
    | TTY | FILE => exact neutral_use _ _
    | SOCKET | PIPE => exact neutral_pure _
  · cases r with
    | error ret => exact .drop fun _ ↦ neutral_pure _
    | ok t => exact .bind (neutral_onPath _ _ _) fun _ ↦ .drop fun _ ↦ neutral_pure _

theorem neutral_getsockopt (sizeofTimeval : ℕ) (s level : ℤ) (optname : SockOpt) (optlen : ℕ) :
    Neutral (getsockopt net sizeofTimeval s level optname optlen) :=
  balance_withFd (neutral_pure _) fun _ _ ↦ .ite (.drop fun _ ↦ neutral_pure _)
    (.bind (neutral_kernel _) fun _ ↦ .drop fun _ ↦ neutral_pure _)

theorem neutral_setsockopt (sizeofTimeval : ℕ) (s level : ℤ) (optname : SockOpt) (optval : ℕ)
    (timeout : ℤ × ℤ) (optlen : ℕ) :
    Neutral (setsockopt net sizeofTimeval s level optname optval timeout optlen) :=
  balance_withFd (neutral_pure _) fun _ _ ↦ .ite (.drop fun _ ↦ neutral_pure _)
    (.bind (neutral_use _ _) fun _ ↦ .drop fun _ ↦ neutral_pure _)

theorem neutral_readdir (dirp : Option Dir) : Neutral (readdir net dirp) := by
  cases dirp with
  | none => exact neutral_pure _
  | some dir =>
    exact balance_withFd (neutral_pure _) fun i d ↦ .bind (neutral_kernel _) fun r ↦
      .drop fun _ ↦ .ite (neutral_pure _)
        (.ite neutral_fault (.ite (neutral_pure _) (neutral_pure _)))

theorem neutral_rewinddir (dirp : Option Dir) : Neutral (rewinddir net dirp) := by
  cases dirp with
  | none => exact neutral_pure _
  | some dir =>
    exact balance_withFd (neutral_pure _) fun i d ↦ .bind (neutral_use _ _) fun path ↦
      .bind (neutral_kernel _) fun r ↦ .ite (.drop fun _ ↦ neutral_pure _)
        (.bind (neutral_use _ _) fun _ ↦ .store fun _ ↦ .drop fun _ ↦ neutral_pure _)

theorem neutral_handle (fd : ℤ) (q : KernelAsk) (a : α) (f : q.Answer → α) :
    Neutral (kernel (.fhTell fd) >>= fun pos : ℤ ↦
      if pos < 0 then pure a else kernel q >>= fun ret ↦ pure (f ret) : Call α) :=
  (neutral_kernel _).bind fun _ ↦ .ite (neutral_pure _)
    ((neutral_kernel _).bind fun _ ↦ neutral_pure _)

theorem neutral_plain (c : Plain) (fd : ℤ) : Neutral (c.steps net fd) := by
  unfold Plain.steps
  refine balance_withFd ?_ fun i d ↦ .bind ?_ fun _ ↦ .drop fun _ ↦ neutral_pure _
  · cases c.handle with
    | none => exact neutral_pure _
    | some q => exact neutral_handle fd _ _ _
  · cases c.entry d with
    | none => exact neutral_pure _
    | some r => exact (neutral_kernel _).bind fun _ ↦ neutral_pure _

theorem neutral_helper (v : VectorCall) (mem : ℕ → UInt8) (fd : ℤ) (iov : List (ℕ × ℕ)) :
    Neutral (v.helperSteps net mem fd iov) := by
  unfold VectorCall.helperSteps
  cases totalFrom 0 iov with
  | none => exact neutral_pure _
  | some bytes =>
    exact (neutral_kernel _).bind fun alloc ↦ .ite (neutral_pure _)
      ((neutral_plain _ _).bind fun _ ↦ neutral_pure _)

theorem neutral_vector (v : VectorCall) (mem : ℕ → UInt8) (fd : ℤ) (iov : List (ℕ × ℕ)) :
    Neutral (v.steps net mem fd iov) := by
  unfold VectorCall.steps
  refine balance_withFd ?_ fun i d ↦ .bind ?_ fun _ ↦ .drop fun _ ↦ neutral_pure _
  · cases (v.plain 0).handle with
    | none => exact neutral_pure _
    | some q => exact neutral_handle fd _ _ _
  · have hpass : Neutral (ask (.pass i)) := fun _ ↦ ⟨trivial, fun _ _ ↦ rfl⟩
    cases d.type with
    | TTY | PIPE | SOCKET =>
      exact hpass.bind fun _ ↦ (neutral_helper v mem _ iov).bind fun _ ↦ neutral_pure _
    | FILE => exact (neutral_kernel _).bind fun _ ↦ neutral_pure _
    | DIRECTORY => exact neutral_pure _

theorem pollFd_balance (eid : ℤ) (n : ℕ) (p : PollFd) :
    Balance [] (fun r ↦ r.2.1.toList) (pollFd eid n p) := by
  have hnone : ∀ p k, Balance [] (fun r ↦ r.2.1.toList) (pure (p, none, k) :
      Call (PollFd × Option Entry × ℤ)) := fun _ _ _ ↦ rfl
  refine .ite (hnone _ _) (.ite (hnone _ _) (balance_withFd ?_ fun i d ↦ ?_))
  · exact .bind (neutral_kernel _) fun pos ↦ .ite (hnone _ _) (hnone _ _)
  · refine .ite (.drop fun _ ↦ ?_) (.bind (neutral_use _ _) fun _ ↦ fun _ ↦ rfl)
    split
    · exact hnone _ _
    · exact hnone _ _

theorem pollLoop_balance (eid : ℤ) (n : ℕ) (pfd : List PollFd) :
    Balance [] (fun r ↦ r.2.1) (pollLoop eid n pfd) := by
  induction pfd generalizing n with
  | nil => exact fun _ ↦ rfl
  | cons p pfd ih =>
    refine (pollFd_balance eid n p).seq fun r ↦ ?_
    rw [List.append_nil]
    exact (ih (n + 1)).seq fun rs g ↦
      congrArg (· + g) (Multiset.coe_eq_coe.mpr List.perm_append_comm)

theorem dropAll_balance (locks : List Entry) : Balance locks (fun _ ↦ []) (dropAll locks) := by
  induction locks with
  | nil => exact fun _ ↦ rfl
  | cons i locks ih => exact .drop fun _ ↦ ih

theorem neutral_poll (pfd : List PollFd) (timeout : ℤ) : Neutral (poll net pfd timeout) := by
  refine .ite (neutral_pure _) (.ite ((neutral_kernel _).bind fun _ ↦ neutral_pure _) ?_)
  refine (neutral_kernel _).bind fun eid ↦ .ite (neutral_pure _) ?_
  refine (pollLoop_balance eid 0 pfd).seq fun r ↦ .bind (neutral_kernel _) fun nev ↦
    .bind (neutral_kernel _) fun _ ↦ (dropAll_balance r.2.1).seq fun _ ↦ neutral_pure _

theorem selectFd_balance (eid : ℤ) (sets : FdSets) (i : ℕ) :
    Balance [] Option.toList (selectFd eid sets i) := by
  refine .ite (fun _ ↦ rfl) (balance_withFd (fun _ ↦ rfl) fun _ d ↦ ?_)
  exact .ite (.drop fun _ _ ↦ rfl) (.bind (neutral_use _ _) fun _ _ ↦ rfl)

theorem selectLoop_balance (eid : ℤ) (sets : FdSets) (fds : List ℕ) :
    Balance [] id (selectLoop eid sets fds) := by
  induction fds with
  | nil => exact fun _ ↦ rfl
  | cons i fds ih =>
    refine (selectFd_balance eid sets i).seq fun lock ↦ ?_
    rw [List.append_nil]
    exact ih.seq fun locks g ↦ congrArg (· + g) (Multiset.coe_eq_coe.mpr List.perm_append_comm)

theorem neutral_fdSetIf (on : Bool) (fd : ℤ) (set : Option FdSet) :
    Neutral (fdSetIf on fd set) := by
  refine .ite ?_ (neutral_pure _)
  cases set with
  | none => exact neutral_fault
  | some set => exact neutral_pure _

theorem neutral_markAll (sets : FdSets) (res : ℤ) (events : List EpollEvent) :
    Neutral (markAll sets res events) := by
  induction events generalizing sets res with
  | nil => exact neutral_pure _
  | cons e events ih =>
    have hmark : Neutral (markEvent sets e) :=
      (neutral_fdSetIf _ _ _).bind fun _ ↦ (neutral_fdSetIf _ _ _).bind fun _ ↦
        (neutral_fdSetIf _ _ _).bind fun _ ↦ neutral_pure _
    exact hmark.bind fun r ↦ ih _ _

theorem neutral_select (nfds : ℤ) (sets : FdSets) (timeout : Option (ℤ × ℤ)) :
    Neutral (select net nfds sets timeout) := by
  refine .ite (neutral_pure _) (.ite ?_ ?_)
  · exact .ite ((neutral_kernel _).bind fun _ ↦ neutral_pure _) (neutral_pure _)
  · refine (neutral_kernel _).bind fun eid ↦ .ite (neutral_pure _) ?_
    refine (selectLoop_balance eid sets _).seq fun locks ↦ .bind (neutral_kernel _) fun nev ↦ ?_
    refine .bind ?_ fun r ↦ .bind (neutral_kernel _) fun _ ↦
      (dropAll_balance locks).seq fun _ ↦ neutral_pure _
    cases nev with
    | error n => exact neutral_pure _
    | ok events => exact (neutral_markAll _ _ _).bind fun _ ↦ neutral_pure _

theorem neutral_socketCall (s : ℤ) (q : Routine) (value : ℤ → ℤ) :
    Neutral (socketCall net s q value) :=
  balance_withFd (neutral_pure _) fun _ _ ↦ .bind (neutral_use _ _) fun _ ↦
    .drop fun _ ↦ neutral_pure _

theorem FdCall.added_eq_zero {c : FdCall} (hc : ¬ c.Duplicates) (t : Table) (out : Outcome)
    (i : Entry) : c.added t out i = 0 := by
  cases c with
  | fcntl fd cmd arg =>
    cases cmd with
    | F_DUPFD => exact absurd rfl hc
    | _ => rfl
  | _ => rfl

theorem Balance.map {α β : Type} {p : Call α} (hp : Neutral p) (f : α → β) : Neutral (f <$> p) :=
  hp.bind fun _ ↦ neutral_pure _

theorem SocketCall.neutral (s : ℤ) (c : SocketCall) : Neutral (c.steps net s) := by
  cases c <;> exact neutral_socketCall _ _ _

theorem FdCall.neutral {c : FdCall} (hc : ¬ c.Duplicates) : Neutral (c.steps net) := by
  cases c with
  | read | write | pread | pwrite => exact (neutral_plain _ _).map _
  | readv | writev | preadv | pwritev => exact (neutral_vector _ _ _ _).map _
  | lseek fd off dir =>
    refine .bind (balance_withFd ?_ fun i d ↦ .bind ?_ fun _ ↦ .drop fun _ ↦ neutral_pure _)
      fun ret ↦ ?_
    · exact neutral_handle fd _ _ _
    · cases d.type with
      | FILE => exact neutral_use _ _
      | _ => exact neutral_pure _
    · cases ret <;> exact neutral_pure _
  | fsync fd =>
    refine balance_withFd (neutral_pure _) fun i d ↦ .bind ?_ fun _ ↦ .drop fun _ ↦ neutral_pure _
    cases d.type with
    | DIRECTORY => exact neutral_onPath _ _ _
    | FILE => exact neutral_use _ _
    | TTY | SOCKET | PIPE => exact neutral_pure _
  | ftruncate fd length =>
    refine balance_withFd (neutral_pure _) fun i d ↦ .bind ?_ fun _ ↦ .drop fun _ ↦ neutral_pure _
    cases d.type with
    | FILE => exact neutral_use _ _
    | _ => exact neutral_pure _
  | fstat fd =>
    refine .bind (balance_withFd ?_ fun i d ↦ .bind ?_ fun _ ↦ .drop fun _ ↦ neutral_pure _)
      fun ret ↦ ?_
    · exact neutral_handle fd _ _ _
    · cases d.type with
      | DIRECTORY => exact neutral_onPath _ _ _
      | FILE => exact neutral_use _ _
      | TTY | SOCKET | PIPE => exact neutral_pure _
    · cases ret <;> exact neutral_pure _
  | fstatvfs fd =>
    refine balance_withFd (neutral_pure _) fun i d ↦ ?_
    cases d.type with
    | TTY | SOCKET | PIPE => exact .drop fun _ ↦ neutral_pure _
    | FILE | DIRECTORY => exact .bind (neutral_onPath _ _ _) fun _ ↦ .drop fun _ ↦ neutral_pure _
  | fchmod fd mode => exact neutral_fchmod fd mode
  | fchdir fd =>
    refine balance_withFd (neutral_pure _) fun i d ↦ ?_
    cases d.type with
    | TTY | FILE | SOCKET | PIPE => exact .drop fun _ ↦ neutral_pure _
    | DIRECTORY => exact .bind (neutral_onPath _ _ _) fun _ ↦ .drop fun _ ↦ neutral_pure _
  | utimensat fd times => exact neutral_utimensat fd times
  | readdir dirp => exact (neutral_readdir dirp).map _
  | rewinddir dirp => exact (neutral_rewinddir dirp).map _
  | fcntl fd cmd arg => exact neutral_fcntl fd hc arg
  | poll pfd timeout => exact (neutral_poll pfd timeout).map _
  | select nfds sets timeout => exact (neutral_select nfds sets timeout).map _
  | getsockopt => exact (neutral_getsockopt _ _ _ _ _).map _
  | setsockopt => exact neutral_setsockopt _ _ _ _ _ _ _
  | socketCall s c => exact c.neutral s

theorem count_next {g : Multiset Entry} {q : Ask} (x : q.Answer) (h : holding.may g q)
    (i : Entry) : (holding.next g q x).count i + (if drops i ⟨q, x⟩ then 1 else 0) =
      g.count i + if grabs i ⟨q, x⟩ then 1 else 0 := by
  cases q with
  | grab fd =>
    cases x with
    | none => rfl
    | some j =>
      change (j ::ₘ g).count i + 0 = g.count i + if decide (some j = some i) then 1 else 0
      rw [Multiset.count_cons]
      simp [eq_comm]
  | drop j =>
    change (g.erase j).count i + (if decide (j = i) then 1 else 0) = g.count i + 0
    by_cases hj : j = i
    · subst hj
      have := Multiset.count_pos.mpr h
      simp
      omega
    · simp [hj, Multiset.count_erase_of_ne (Ne.symm hj)]
  | _ => rfl

theorem count_after {g : Multiset Entry} {tr : Trace} (h : holding.Follows g tr) (i : Entry) :
    (holding.after g tr).count i + tr.countP (drops i) = g.count i + tr.countP (grabs i) := by
  induction tr generalizing g with
  | nil => rfl
  | cons e tr ih =>
    obtain ⟨q, x⟩ := e
    obtain ⟨hmay, hrest⟩ := h
    have hfirst := count_next x hmay i
    have hlast := ih hrest
    dsimp only at hlast
    rw [List.countP_cons, List.countP_cons]
    change (holding.after (holding.next g q x) tr).count i + _ = _
    omega

theorem Neutral.balanced {α : Type} {p : Call α} (hp : Neutral p) {tr : Trace} {a : α}
    (h : p.Path tr a) : Balanced tr := by
  have hcan : ∀ g tr, holding.Possible g tr := by
    intro g tr
    induction tr generalizing g with
    | nil => trivial
    | cons e tr ih => exact ⟨trivial, ih _⟩
  obtain ⟨hfollows, hafter⟩ := (hp 0).path h (hcan _ _)
  intro i
  refine ⟨?_, fun tr' htr ↦ ?_⟩
  · have hcount := count_after hfollows i
    rw [hafter] at hcount
    simp at hcount
    exact hcount.symm
  · obtain ⟨rest, rfl⟩ := htr
    have hcount := count_after hfollows.of_append i
    simp at hcount
    omega

/-- The table while a call holds `g` and nothing else runs: it has one reference more for each. -/
structure Held (t : Table) (g : Multiset Entry) (t' : Table) : Prop where
  fdmap : t'.fdmap = t.fdmap
  refCount : ∀ i, (t'.pool i).refCount = (t.pool i).refCount + g.count i
  inUse : ∀ i ∈ g, 0 < (t.pool i).refCount

theorem Held.addRef {t t' : Table} {g g' : Multiset Entry} (h : Held t g t') {i : Entry} {n : ℤ}
    (hcount : ∀ j, (g'.count j : ℤ) = g.count j + if j = i then n else 0)
    (huse : ∀ j ∈ g', 0 < (t.pool j).refCount) : Held t g' (t'.addRef i n) where
  fdmap := h.fdmap
  refCount j := by
    rw [Table.addRef_refCount, h.refCount, hcount]
    omega
  inUse := huse

theorem Held.serve_drop {σ : Type} {K : (q : KernelAsk) → σ → q.Answer × σ} {t t' : Table} {k : σ}
    {g : Multiset Entry} {i : Entry} (h : Held t g t') (hi : i ∈ g) :
    Descriptor.serve net K (.drop i) (t', k) = some ((0 : ℤ), t'.addRef i (-1), k) := by
  have hone : (t'.pool i).refCount ≠ 1 := by
    have := Multiset.count_pos.mpr hi
    have := h.refCount i
    have := h.inUse i hi
    omega
  have hout := fdDrop_outcome net t' i 0
  simp only [Descriptor.serve, if_neg hone]
  generalize fdDrop net t' i 0 = res at hout ⊢
  cases hout with
  | shared => rfl
  | closed href => exact absurd href hone
  | failed ret href => exact absurd href hone

theorem Held.serve {σ : Type} {K : (q : KernelAsk) → σ → q.Answer × σ} {t t' : Table} {k : σ}
    (ht : InUse t) {g : Multiset Entry} {q : Ask} {r : q.Answer × Table × σ} (h : Held t g t')
    (hmay : holding.may g q) (hr : Descriptor.serve net K q (t', k) = some r) :
    Held t (holding.next g q r.1) r.2.1 := by
  cases q with
  | grab fd =>
    obtain rfl := Option.some.inj hr
    have hout := fdGrab_outcome t' fd
    dsimp only
    generalize fdGrab t' fd = res at hout ⊢
    cases hout with
    | refused => exact h
    | grabbed s i hi =>
      refine h.addRef (fun j ↦ ?_) fun j hj ↦ ?_
      · change ((i ::ₘ g).count j : ℤ) = _
        rw [Multiset.count_cons]
        split_ifs <;> simp
      · rcases Multiset.mem_cons.mp hj with rfl | hj
        · exact ht s j (h.fdmap ▸ (openAt_eq_some.mp hi).2)
        · exact h.inUse j hj
  | drop i =>
    obtain rfl := Option.some.inj ((h.serve_drop hmay).symm.trans hr)
    refine h.addRef (fun j ↦ ?_) fun j hj ↦ h.inUse j (Multiset.mem_of_mem_erase hj)
    have hcount := Multiset.count_pos.mpr hmay
    change ((g.erase i).count j : ℤ) = _
    by_cases hj : j = i
    · subst hj
      rw [Multiset.count_erase_self, if_pos rfl]
      omega
    · rw [Multiset.count_erase_of_ne hj, if_neg hj, add_zero]
  | storeUid i uid =>
    obtain rfl := Option.some.inj hr
    refine ⟨h.fdmap, fun j ↦ (congrArg (· = _) ?_).mpr (h.refCount j), h.inUse⟩
    by_cases hj : j = i
    · subst hj
      simp
    · simp [hj]
  | duplicate => exact hmay.elim
  | fault => cases hr
  | load | pass | kernel =>
    obtain rfl := Option.some.inj hr
    exact h

theorem Neutral.run {σ α : Type} {K : (q : KernelAsk) → σ → q.Answer × σ} {p : Call α}
    (hp : Neutral p) {t t' : Table} {k k' : σ} (ht : InUse t) {a : α}
    (h : p.run (Descriptor.serve net K) (t, k) = some (a, t', k')) :
    t'.fdmap = t.fdmap ∧ ∀ i, (t'.pool i).refCount = (t.pool i).refCount := by
  have hheld : Held t 0 t := ⟨rfl, fun i ↦ by simp, fun i hi ↦ by simp at hi⟩
  let rel (g : Multiset Entry) (s : Table × σ) : Prop := Held t g s.1
  have hstep : ∀ g s q x s', rel g s → holding.may g q → Descriptor.serve net K q s = some (x, s') →
      holding.can g q x ∧ rel (holding.next g q x) s' :=
    fun g s q x s' hs hmay hx ↦ ⟨trivial, Held.serve ht hs hmay hx⟩
  obtain ⟨g, rfl, hg⟩ := (hp 0).run rel (t := (t, k)) hheld hstep h
  refine ⟨hg.fdmap, fun i ↦ ?_⟩
  rw [hg.refCount]
  simp

theorem fcntl_dupfd {fd : ℤ} {arg : ℕ} : fcntl net fd .F_DUPFD arg =
    if MAX_OPEN_FILES ≤ arg then pure (fail EINVAL)
    else .ask (Ask.duplicate fd arg) fun x ↦
      match x with
      | .error _ => pure (fail EBADF)
      | .ok dupfd => pure ⟨dupfd.val, some 0⟩ := rfl

theorem fcntl_dupfd_balanced {fd : ℤ} {arg : ℕ} {tr : Trace} {out : Outcome}
    (h : (fcntl net fd .F_DUPFD arg).Path tr out) : Balanced tr := by
  have hno : ∀ e ∈ tr, ∀ i, grabs i e = false ∧ drops i e = false := by
    rw [fcntl_dupfd] at h
    split at h
    · cases h
      simp
    · cases h with
      | ask q next x h =>
        cases x <;> cases h <;> simp [grabs, drops]
  have hzero : ∀ tr', tr' <+: tr → ∀ i, tr'.countP (grabs i) = 0 ∧ tr'.countP (drops i) = 0 := by
    intro tr' htr i
    rw [List.countP_eq_zero, List.countP_eq_zero]
    exact ⟨fun e he ↦ by simp [hno e (htr.subset he) i],
      fun e he ↦ by simp [hno e (htr.subset he) i]⟩
  intro i
  obtain ⟨hg, hd⟩ := hzero tr (List.prefix_refl tr) i
  refine ⟨hg.trans hd.symm, fun tr' htr ↦ ?_⟩
  obtain ⟨hg, hd⟩ := hzero tr' htr i
  omega

theorem fcntl_dupfd_run {σ : Type} {K : (q : KernelAsk) → σ → q.Answer × σ} {fd : ℤ} {arg : ℕ}
    {t t' : Table} {k k' : σ} {out : Outcome}
    (h : (fcntl net fd .F_DUPFD arg).run (serve net K) (t, k) = some (out, t', k')) (i : Entry) :
    (t'.pool i).refCount = (t.pool i).refCount +
      (FdCall.fcntl fd .F_DUPFD arg).added t out i := by
  rw [fcntl_dupfd] at h
  unfold FdCall.added
  dsimp only
  split at h
  · obtain ⟨rfl, hs⟩ := Prod.mk.inj (Option.some.inj h)
    obtain ⟨rfl, -⟩ := Prod.mk.inj hs
    rw [if_neg fun hpos ↦ absurd hpos.1 (by decide), add_zero]
  · have hout := duplicateDescriptor_outcome t fd arg
    simp only [Program.run_ask, serve, Option.bind_some] at h
    generalize duplicateDescriptor t fd arg = res at hout h
    cases hout with
    | refused | full =>
      obtain ⟨rfl, hs⟩ := Prod.mk.inj (Option.some.inj h)
      obtain ⟨rfl, -⟩ := Prod.mk.inj hs
      rw [if_neg fun hpos ↦ absurd hpos.1 (by decide), add_zero]
    | shared s j hopen s' =>
      obtain ⟨rfl, hs⟩ := Prod.mk.inj (Option.some.inj h)
      obtain ⟨rfl, -⟩ := Prod.mk.inj hs
      rw [Table.addRef_refCount, hopen]
      simp [eq_comm]

theorem reference_neutral (net : NetErrno → ℤ) (c : FdCall) :
    (∀ tr out, (c.steps net).Path tr out → Balanced tr) ∧
    ∀ (σ : Type) (K : (q : KernelAsk) → σ → q.Answer × σ) (t t' : Table) (k k' : σ) (out : Outcome),
      InUse t → (c.steps net).run (serve net K) (t, k) = some (out, t', k') →
      ∀ i, (t'.pool i).refCount = (t.pool i).refCount + c.added t out i := by
  by_cases hc : c.Duplicates
  · cases c with
    | fcntl fd cmd arg =>
      obtain rfl : cmd = .F_DUPFD := hc
      exact ⟨fun tr out ↦ fcntl_dupfd_balanced, fun σ K t t' k k' out _ ↦ fcntl_dupfd_run⟩
    | _ => exact hc.elim
  · refine ⟨fun tr out h ↦ (FdCall.neutral hc).balanced h, fun σ K t t' k k' out ht h i ↦ ?_⟩
    rw [((FdCall.neutral hc).run ht h).2 i, FdCall.added_eq_zero hc, add_zero]

end

theorem reference_neutral_getfd :
    Balanced [⟨.grab 0, some 0⟩, ⟨.load 0, ⟨0, .TTY, 1⟩⟩, ⟨.drop 0, (0 : ℤ)⟩] ∧
      ∃ t', (fcntl 0 0 .F_GETFD 0).run (serve 0 fun q k ↦ (q.quiet, k)) (initFd 0 1 2, ()) =
        some (⟨0, none⟩, t', ()) ∧
        ∀ i, (t'.pool i).refCount = ((initFd 0 1 2).pool i).refCount := by
  have h := reference_neutral 0 (.fcntl 0 .F_GETFD 0)
  refine ⟨h.1 _ ⟨0, none⟩ (.ask _ _ _ (.ask _ _ _ (.ask _ _ _ (.ret _)))), _, rfl, fun i ↦ ?_⟩
  have hrun := h.2 Unit (fun q k ↦ (q.quiet, k)) (initFd 0 1 2) _ () () ⟨0, none⟩
    (counts_initFd 0 1 2).inUse rfl i
  rwa [FdCall.added_eq_zero FcntlCmd.noConfusion, add_zero] at hrun

/-- `fcntl(0, F_DUPFD, 3)` leaves one more reference to the entry of the standard input. -/
theorem dupfd_adds_reference :
    ∃ t', (fcntl 0 0 .F_DUPFD 3).run (serve 0 fun q k ↦ (q.quiet, k)) (initFd 0 1 2, ()) =
      some (⟨3, some 0⟩, t', ()) ∧
      ((initFd 0 1 2).pool 0).refCount = 1 ∧ (t'.pool 0).refCount = 2 := by
  have hres : (duplicateDescriptor (initFd 0 1 2) 0 (3 : ℕ)).1 = .ok 3 := by
    decide +kernel
  refine ⟨(duplicateDescriptor (initFd 0 1 2) 0 (3 : ℕ)).2, ?_, rfl, by decide +kernel⟩
  rw [fcntl_dupfd, if_neg (by decide), Program.run_ask]
  simp only [serve, Option.bind_some, hres]
  rfl

end SceLibcPosix.Descriptor
