import SceLibcPosix.Descriptor.Frame
import SceLibcPosix.Descriptor.Locks
import SceLibcPosix.Descriptor.Neutral

namespace SceLibcPosix.Descriptor

open Errno VitaError References Programs Relation

/-- The families of the routines that take a handle. Those of the library take descriptors. -/
inductive Family
  | fiosFile | fiosDirectory | net | msgPipe | io | library
deriving DecidableEq, Repr

def DescriptorTypes.family : DescriptorTypes → Family
  | .TTY => .io
  | .FILE => .fiosFile
  | .DIRECTORY => .fiosDirectory
  | .SOCKET => .net
  | .PIPE => .msgPipe

def KernelObject.family : KernelObject → Family
  | .stdio _ => .io
  | .file _ => .fiosFile
  | .directory _ => .fiosDirectory
  | .socket _ => .net
  | .msgPipe _ => .msgPipe

def KernelObject.handle : KernelObject → ℤ
  | .stdio n | .file n | .directory n | .socket n | .msgPipe n => n

def Routine.family : Routine → Family
  | .sceFiosFHSeek _ _ | .sceFiosFHSyncSync | .sceFiosFHStatSync | .sceFiosFHTruncateSync _
  | .sceFiosFHGetPath => .fiosFile
  | .sceFiosDHGetPath | .sceFiosDHCloseSync => .fiosDirectory
  | .sceNetListen _ | .sceNetAccept _ _ | .sceNetShutdown _ | .sceNetBind _ _ | .sceNetConnect _ _
  | .sceNetGetpeername _ _ | .sceNetGetsockname _ _ | .sceNetSend _ _ _ | .sceNetSendto _ _ _ _ _
  | .sceNetSendmsg _ _ | .sceNetRecv _ _ _ | .sceNetRecvfrom _ _ _ _ _ | .sceNetRecvmsg _ _
  | .sceNetSetsockopt _ _ _ _ | .sceNetEpollControl _ _ => .net

def Request.family : Request → Family
  | .ioRead _ _ | .ioWrite _ _ | .ioPread _ _ _ | .ioPwrite _ _ _ => .io
  | .fhRead _ _ | .fhWrite _ _ | .fhPread _ _ _ | .fhPwrite _ _ _ | .fhReadv _ _ | .fhWritev _ _
  | .fhPreadv _ _ _ | .fhPwritev _ _ _ => .fiosFile
  | .netRecv _ _ | .netSend _ _ => .net
  | .receiveMsgPipe _ _ | .sendMsgPipe _ _ => .msgPipe

def Request.handle : Request → ℤ
  | .ioRead n _ | .ioWrite n _ | .ioPread n _ _ | .ioPwrite n _ _ | .fhRead n _ | .fhWrite n _
  | .fhPread n _ _ | .fhPwrite n _ _ | .fhReadv n _ | .fhWritev n _ | .fhPreadv n _ _
  | .fhPwritev n _ _ | .netRecv n _ | .netSend n _ | .receiveMsgPipe n _ | .sendMsgPipe n _ => n

/-- A routine of a family has been applied to the handle of an entry. `object` is what the handle
has been created as. -/
structure Use where
  object : KernelObject
  handle : ℤ
  family : Family
deriving DecidableEq, Repr

def Use.Right (u : Use) : Prop := u.handle = u.object.handle ∧ u.family = u.object.family

/-- The descriptor table, what the handle of each entry has been created as, which the code does not
keep, and the uses of handles so far. -/
structure Session where
  table : Table
  origin : Entry → KernelObject
  uses : List Use

def KernelAsk.uses (origin : Entry → KernelObject) : KernelAsk → List Use
  | .use (some i) handle q => [⟨origin i, handle, q.family⟩]
  | .transfer (some i) q => [⟨origin i, q.handle, q.family⟩]
  | .dhRead i dh => [⟨origin i, dh, .fiosDirectory⟩]
  | .getsockopt i id _ _ => [⟨origin i, id, .net⟩]
  | _ => []

namespace Session

def closing (s : Session) (i : Entry) : List Use :=
  let d := s.table.pool i
  if d.refCount = 1 then [⟨s.origin i, d.sceUid, d.object.family⟩] else []

end Session

def Ask.uses (s : Session) : Ask → List Use
  | .kernel q => q.uses s.origin
  | .pass i => [⟨s.origin i, (s.table.pool i).sceUid, .library⟩]
  | .drop i => s.closing i
  | _ => []

/-- Only `rewinddir` stores a handle, that of a directory. -/
def Ask.newOrigin (origin : Entry → KernelObject) : Ask → Entry → KernelObject
  | .storeUid i uid => Function.update origin i (.directory uid)
  | _ => origin

/-- The answers of `serve`, with a record of the uses. -/
def watch {σ : Type} (net : NetErrno → ℤ) (K : (q : KernelAsk) → σ → q.Answer × σ) (q : Ask)
    (s : Session × σ) : Option (q.Answer × Session × σ) :=
  (serve net K q (s.1.table, s.2)).map fun r ↦
    (r.1, ⟨r.2.1, q.newOrigin s.1.origin, q.uses s.1 ++ s.1.uses⟩, r.2.2)

namespace Session

/-- The uses of the close routines that a call has made itself, of an object that it has created. -/
def undone (t t' : Table) (o : KernelObject) : List Use :=
  (t'.calls.take (t'.calls.length - t.calls.length)).filterMap fun
    | .close o' _ => some ⟨o, o'.handle, o'.family⟩
    | .created _ => none

/-- What becomes of `origin` when a call has stored the handle of `o` for its new descriptor. -/
def stored (s : Session) (o : KernelObject) : Except ℤ Slot × Table → Entry → KernelObject
  | (.ok fd, t) => (t.fdmap fd).elim s.origin fun i ↦ Function.update s.origin i o
  | (.error _, _) => s.origin

def piped (s : Session) (uid : ℤ) : Entry → KernelObject :=
  if uid < 0 then s.origin
  else s.stored (.msgPipe uid) (install (s.table.call (.created (.msgPipe uid))) uid .PIPE id)

def created (s : Session) (o : KernelObject) (res : Except ℤ Slot × Table) : Session :=
  ⟨res.2, s.stored o res, undone s.table res.2 o ++ s.uses⟩

def accepting (s : Session) (fd : ℤ) : List Use :=
  match fdGrab s.table fd with
  | (none, _) => []
  | (some i, t) =>
    ({ s with table := t } : Session).closing i ++ [⟨s.origin i, (t.pool i).sceUid, .net⟩]

def releasing (s : Session) (fd : ℤ) : List Use :=
  (openAt s.table fd).elim [] fun p ↦ s.closing p.2

def replacing (s : Session) (oldfd newfd : ℤ) : List Use :=
  match openAt s.table oldfd with
  | none => []
  | some (sl, _) => if newfd = sl.val then [] else s.releasing newfd

end Session

/-- A call of a program. `k` and `r` are the answers of the kernel. -/
inductive SessionCall
  | open' (k : Answers) (fullPath : Except ℤ String) (flags : BitVec 32)
  | socket (k : Answers)
  | accept (k : Answers) (s : ℤ)
  | pipe (k : Answers)
  | dup (fd : ℤ)
  | dup2 (oldfd newfd r : ℤ)
  | close (fd r : ℤ)
  | use (c : FdCall)

def openedObject (k : Answers) (flags : BitVec 32) : KernelObject :=
  if isDir k = 0 ∧ flags &&& O_DIRECTORY ≠ 0 then .directory k.dh else .file k.fh

/-- What a call does, whatever the kernel answers. -/
inductive SessionCall.Runs (net : NetErrno → ℤ) (s : Session) : SessionCall → Session → Prop
  | open' (k : Answers) (fullPath : Except ℤ String) (flags : BitVec 32) :
    Runs net s (.open' k fullPath flags)
      (s.created (openedObject k flags) (Descriptor.open' net s.table k fullPath flags))
  | socket (k : Answers) :
    Runs net s (.socket k) (s.created (.socket k.netSocket) (Descriptor.socket net s.table k))
  | accept (k : Answers) (fd : ℤ) :
    Runs net s (.accept k fd)
      ⟨(Descriptor.accept net s.table k fd).2,
        s.stored (.socket k.netAccept) (Descriptor.accept net s.table k fd),
        s.accepting fd ++ s.uses⟩
  | pipe (k : Answers) :
    Runs net s (.pipe k)
      ⟨(Descriptor.pipe net s.table k).2, s.piped k.msgPipe,
        Session.undone s.table (Descriptor.pipe net s.table k).2 (.msgPipe k.msgPipe) ++ s.uses⟩
  | dup (fd : ℤ) : Runs net s (.dup fd) { s with table := (duplicateDescriptor s.table fd 0).2 }
  | dup2 (oldfd newfd r : ℤ) :
    Runs net s (.dup2 oldfd newfd r)
      ⟨(Descriptor.dup2 net s.table oldfd newfd r).2, s.origin, s.replacing oldfd newfd ++ s.uses⟩
  | close (fd r : ℤ) :
    Runs net s (.close fd r)
      ⟨(releaseDescriptor net s.table fd r).2, s.origin, s.releasing fd ++ s.uses⟩
  | use (c : FdCall) {σ : Type} (K : (q : KernelAsk) → σ → q.Answer × σ) (k k' : σ) (out : Outcome)
    (s' : Session) (h : (c.steps net).run (watch net K) (s, k) = some (out, s', k')) :
    Runs net s (.use c) s'

def FdCall.descriptor : FdCall → Option ℤ
  | read fd _ | write fd _ | pread fd _ _ | pwrite fd _ _ | readv _ fd _ | writev _ fd _
  | preadv _ fd _ _ | pwritev _ fd _ _ | lseek fd _ _ | fsync fd | ftruncate fd _ | fstat fd
  | fstatvfs fd | fchmod fd _ | fchdir fd | utimensat fd _ | fcntl fd _ _
  | getsockopt _ fd _ _ _ | setsockopt _ fd _ _ _ _ _ | socketCall fd _ => some fd
  | readdir dirp | rewinddir dirp => dirp.map Dir.fd
  | poll _ _ | select _ _ _ => none

/-- The types of entries on which a call applies the right routines. -/
def FdCall.Takes : FdCall → DescriptorTypes → Prop
  | pread _ _ _ | pwrite _ _ _ => fun type ↦ type ≠ .SOCKET ∧ type ≠ .PIPE
  | readv _ _ _ | writev _ _ _ | preadv _ _ _ _ | pwritev _ _ _ _ =>
    fun type ↦ type = .FILE ∨ type = .DIRECTORY
  | fstatvfs _ => fun type ↦ type ≠ .FILE
  | fchmod _ _ | utimensat _ _ => fun type ↦ type ≠ .TTY
  | readdir _ | rewinddir _ => fun type ↦ type = .DIRECTORY
  | getsockopt sizeofTimeval _ _ optname optlen | setsockopt sizeofTimeval _ _ optname _ _ optlen =>
    fun type ↦ type = .SOCKET ∨ optname.isTimeout ∧ optlen < sizeofTimeval
  | socketCall _ _ => fun type ↦ type = .SOCKET
  | _ => fun _ ↦ True

/-- The entry of each descriptor is of a type that satisfies `p`. -/
def OfType (t : Table) (fd : ℤ) (p : DescriptorTypes → Prop) : Prop :=
  ∀ s i, openAt t fd = some (s, i) → p (t.pool i).type

/-- No directory is opened as a file, and the calls that do not look at the type of a descriptor, or
take it for another, get none that they are wrong about. -/
def SessionCall.Fits (s : Session) : SessionCall → Prop
  | open' k fullPath flags =>
    fullPath.isOk → isDir k = 0 → 0 ≤ k.fhOpen → flags &&& O_DIRECTORY ≠ 0
  | accept _ fd => OfType s.table fd fun type ↦ type = .SOCKET
  | use c => ∀ fd ∈ c.descriptor, OfType s.table fd c.Takes
  | _ => True

inductive SessionStep (net : NetErrno → ℤ) (Ok : Session → SessionCall → Prop) :
    Session → Session → Prop
  | call (s : Session) (c : SessionCall) {s' : Session} (hok : Ok s c) (h : c.Runs net s s') :
    SessionStep net Ok s s'

def Session.init (stdin stdout stderr : ℤ) : Session where
  table := initFd stdin stdout stderr
  origin i := ((initFd stdin stdout stderr).pool i).object
  uses := []

/-- A call in a table `t` applies routines of the right families only. -/
def handling (t : Table) : Rules Ask Ask.Answer (Entry → KernelObject) where
  may origin
    | .kernel q => ∀ u ∈ q.uses origin, u.Right
    | .pass _ => False
    | .load i => ∃ s, t.fdmap s = some i
    | .storeUid i _ => (∃ s, t.fdmap s = some i) ∧ ∃ dh, origin i = .directory dh
    | _ => True
  can origin
    | .grab fd, x => ∀ i, x = some i → ∃ s, openAt t fd = some (s, i)
    | .load i, d => d.object = origin i
    | _, _ => True
  next origin q _ := q.newOrigin origin

/-- Each open entry has the uid and the type of what it has been created as. -/
def Typed (t : Table) (origin : Entry → KernelObject) : Prop :=
  ∀ s i, t.fdmap s = some i → (t.pool i).object = origin i

def Proper {α : Type} (t : Table) (origin : Entry → KernelObject) (p : Call α) : Prop :=
  p.Obeys (handling t) origin fun _ origin' ↦ origin' = origin

section Proper

variable {α β : Type} {net : NetErrno → ℤ} {t : Table} {origin : Entry → KernelObject} {i : Entry}
  {d d' : DescriptorTranslation} {p q : Call α} {f : α → Call β} {fd : ℤ}
  {P : DescriptorTypes → Prop}

theorem object_family (d : DescriptorTranslation) : d.object.family = d.type.family := by
  unfold DescriptorTranslation.object
  cases d.type <;> rfl

theorem object_handle (d : DescriptorTranslation) : d.object.handle = d.sceUid := by
  unfold DescriptorTranslation.object
  cases d.type <;> rfl

theorem object_type (h : d.object = d'.object) : d.type = d'.type := by
  have hfamily : d.type.family = d'.type.family := by
    rw [← object_family, h, object_family]
  revert hfamily
  cases d.type <;> cases d'.type <;> simp [DescriptorTypes.family]

theorem proper_pure (a : α) : Proper t origin (pure a : Call α) := rfl

theorem proper_fault : Proper t origin (fault : Call α) := ⟨trivial, fun x ↦ x.elim⟩

theorem Proper.obeys_bind {post : β → (Entry → KernelObject) → Prop} (hp : Proper t origin p)
    (hf : ∀ a, (f a).Obeys (handling t) origin post) :
    (p >>= f).Obeys (handling t) origin post := by
  refine Program.obeys_bind.mpr (Program.Obeys.mono hp fun a _ h ↦ ?_)
  subst h
  exact hf a

theorem Proper.bind (hp : Proper t origin p) (hf : ∀ a, Proper t origin (f a)) :
    Proper t origin (p >>= f) := hp.obeys_bind hf

theorem Proper.ite {c : Prop} [Decidable c] (hp : c → Proper t origin p)
    (hq : ¬ c → Proper t origin q) : Proper t origin (if c then p else q) := by
  split
  · next h => exact hp h
  · next h => exact hq h

theorem Proper.drop {f : ℤ → Call β} (hf : ∀ ret, Proper t origin (f ret)) :
    Proper t origin (Descriptor.drop i >>= f) := ⟨trivial, fun ret _ ↦ hf ret⟩

theorem proper_kernel {q : KernelAsk} (hq : ∀ u ∈ q.uses origin, u.Right) :
    Proper t origin (kernel q) := ⟨hq, fun _ _ ↦ rfl⟩

theorem right_of_type (hd : d.object = origin i) {family : Family} (hf : family = d.type.family) :
    ∀ u ∈ [(⟨origin i, d.sceUid, family⟩ : Use)], u.Right := by
  intro u hu
  obtain rfl := List.mem_singleton.mp hu
  rw [← hd]
  exact ⟨(object_handle d).symm, hf.trans (object_family d).symm⟩

theorem proper_use (hd : d.object = origin i) {q : Routine} (hq : q.family = d.type.family) :
    Proper t origin (use i d q) := proper_kernel (right_of_type hd hq)

theorem proper_onPath (hd : d.object = origin i) {q : Routine} (hq : q.family = d.type.family)
    (c : PathCall) : Proper t origin (onPath i d q c) :=
  (proper_use hd hq).bind fun _ ↦ proper_kernel fun _ h ↦ nomatch h

theorem obeys_withFd (ht : Typed t origin) (hfd : OfType t fd P) {absent : Call α}
    {body : Entry → DescriptorTranslation → Call α} {post : α → (Entry → KernelObject) → Prop}
    (ha : absent.Obeys (handling t) origin post)
    (hb : ∀ i d, (∃ s, t.fdmap s = some i) → d.object = origin i → P d.type →
      (body i d).Obeys (handling t) origin post) :
    (withFd fd absent body).Obeys (handling t) origin post := by
  refine ⟨trivial, fun x hx ↦ ?_⟩
  cases x with
  | none => exact ha
  | some i =>
    obtain ⟨s, hopen⟩ := hx i rfl
    have hs := (openAt_eq_some.mp hopen).2
    refine ⟨⟨s, hs⟩, fun d hd ↦ hb i d ⟨s, hs⟩ hd ?_⟩
    rw [object_type (hd.trans (ht s i hs).symm)]
    exact hfd s i hopen

theorem proper_withFd (ht : Typed t origin) (hfd : OfType t fd P) {absent : Call α}
    {body : Entry → DescriptorTranslation → Call α} (ha : Proper t origin absent)
    (hb : ∀ i d, d.object = origin i → P d.type → Proper t origin (body i d)) :
    Proper t origin (withFd fd absent body) :=
  obeys_withFd ht hfd ha fun i d _ ↦ hb i d

theorem proper_getsockopt_ask (hd : d.object = origin i) (htype : d.type = .SOCKET) (level : ℤ)
    (optname : SockOpt) : Proper t origin (kernel (.getsockopt i d.sceUid level optname)) := by
  refine proper_kernel (right_of_type hd ?_)
  rw [htype]
  rfl

theorem proper_transfer (hd : d.object = origin i) {q : Request} (hhandle : q.handle = d.sceUid)
    (hq : q.family = d.type.family) : Proper t origin (kernel (.transfer (some i) q)) := by
  refine proper_kernel fun u hu ↦ right_of_type hd hq u ?_
  rwa [← hhandle]

theorem proper_other {q : KernelAsk} (hq : q.uses origin = []) : Proper t origin (kernel q) :=
  proper_kernel fun _ hu ↦ nomatch hq ▸ hu

theorem proper_handle {β : Type} {q : KernelAsk} (hq : q.uses origin = []) (a : β)
    (f : q.Answer → β) : Proper t origin (kernel (.fhTell fd) >>= fun pos : ℤ ↦
      if pos < 0 then pure a else kernel q >>= fun ret ↦ pure (f ret) : Call β) :=
  (proper_other rfl).bind fun _ ↦ .ite (fun _ ↦ proper_pure _) fun _ ↦
    (proper_other hq).bind fun _ ↦ proper_pure _

theorem ofType_true : OfType t fd fun _ ↦ True := fun _ _ _ ↦ trivial

theorem proper_fcntl (ht : Typed t origin) {cmd : FcntlCmd} (hcmd : cmd ≠ .F_DUPFD) (arg : ℕ) :
    Proper t origin (fcntl net fd cmd arg) := by
  rw [fcntl, if_neg hcmd]
  refine proper_withFd ht ofType_true (proper_pure _) fun i d hd _ ↦ .ite
    (fun _ ↦ .drop fun _ ↦ proper_pure _) fun _ ↦ .ite (fun hget ↦ ?_) fun _ ↦ .ite (fun hset ↦ ?_)
      fun _ ↦ .drop fun _ ↦ proper_pure _
  · exact (proper_getsockopt_ask hd hget.1 _ _).bind fun _ ↦ .drop fun _ ↦ proper_pure _
  · exact (proper_use hd (by rw [hset.1]; rfl)).bind fun _ ↦ .drop fun _ ↦ proper_pure _

theorem proper_lseek (ht : Typed t origin) (off dir : ℤ) :
    Proper t origin (lseek net fd off dir) := by
  refine (proper_withFd ht ofType_true ?_ fun i d hd _ ↦ ?_).bind fun ret ↦ ?_
  · exact proper_handle rfl _ _
  · refine .bind ?_ fun _ ↦ .drop fun _ ↦ proper_pure _
    cases htype : d.type with
    | FILE => exact proper_use hd (by rw [htype]; rfl)
    | _ => exact proper_pure _
  · cases ret <;> exact proper_pure _

theorem proper_fstat (ht : Typed t origin) : Proper t origin (fstat net fd) := by
  refine (proper_withFd ht ofType_true ?_ fun i d hd _ ↦ ?_).bind fun ret ↦ ?_
  · exact proper_handle rfl _ _
  · refine .bind ?_ fun _ ↦ .drop fun _ ↦ proper_pure _
    cases htype : d.type with
    | DIRECTORY => exact proper_onPath hd (by rw [htype]; rfl) _
    | FILE => exact proper_use hd (by rw [htype]; rfl)
    | TTY | SOCKET | PIPE => exact proper_pure _
  · cases ret <;> exact proper_pure _

theorem proper_fsync (ht : Typed t origin) : Proper t origin (fsync net fd) := by
  refine proper_withFd ht ofType_true (proper_pure _) fun i d hd _ ↦
    .bind ?_ fun _ ↦ .drop fun _ ↦ proper_pure _
  cases htype : d.type with
  | DIRECTORY => exact proper_onPath hd (by rw [htype]; rfl) _
  | FILE => exact proper_use hd (by rw [htype]; rfl)
  | TTY | SOCKET | PIPE => exact proper_pure _

theorem proper_ftruncate (ht : Typed t origin) (length : ℤ) :
    Proper t origin (ftruncate net fd length) := by
  refine proper_withFd ht ofType_true (proper_pure _) fun i d hd _ ↦
    .bind ?_ fun _ ↦ .drop fun _ ↦ proper_pure _
  cases htype : d.type with
  | FILE => exact proper_use hd (by rw [htype]; rfl)
  | _ => exact proper_pure _

theorem proper_fstatvfs (ht : Typed t origin) (hfd : OfType t fd (· ≠ .FILE)) :
    Proper t origin (fstatvfs fd) := by
  refine proper_withFd ht hfd (proper_pure _) fun i d hd hfile ↦ ?_
  cases htype : d.type with
  | TTY | SOCKET | PIPE => exact .drop fun _ ↦ proper_pure _
  | FILE => exact absurd htype hfile
  | DIRECTORY =>
    exact (proper_onPath hd (by rw [htype]; rfl) _).bind fun _ ↦ .drop fun _ ↦ proper_pure _

theorem proper_fchdir (ht : Typed t origin) : Proper t origin (fchdir fd) := by
  refine proper_withFd ht ofType_true (proper_pure _) fun i d hd _ ↦ ?_
  cases htype : d.type with
  | TTY | FILE | SOCKET | PIPE => exact .drop fun _ ↦ proper_pure _
  | DIRECTORY =>
    exact (proper_onPath hd (by rw [htype]; rfl) _).bind fun _ ↦ .drop fun _ ↦ proper_pure _

theorem proper_fchmod (ht : Typed t origin) (hfd : OfType t fd (· ≠ .TTY)) (mode : ℕ) :
    Proper t origin (fchmod net fd mode) := by
  refine proper_withFd ht hfd (proper_pure _) fun i d hd htty ↦ .bind ?_ fun ret ↦
    .ite (fun _ ↦ .drop fun _ ↦ proper_pure _) fun _ ↦
      .bind ?_ fun _ ↦ .drop fun _ ↦ proper_pure _
  all_goals
    cases htype : d.type with
    | TTY => exact absurd htype htty
    | FILE | DIRECTORY => exact proper_onPath hd (by rw [htype]; rfl) _
    | SOCKET | PIPE => exact proper_pure _

theorem proper_newTimes (times : Option (Timespec × Timespec)) :
    Proper t origin (newTimes times) := by
  have hone : ∀ time, Proper t origin (toDateTime time) := by
    intro time
    unfold toDateTime
    cases time.nsec with
    | value n => exact (proper_other rfl).bind fun _ ↦ proper_pure _
    | UTIME_NOW | UTIME_OMIT => exact proper_other rfl
  cases times with
  | none => exact (proper_other rfl).bind fun _ ↦ proper_pure _
  | some p =>
    exact (hone _).bind fun r ↦ .ite (fun _ ↦ proper_pure _) fun _ ↦
      (hone _).bind fun _ ↦ proper_pure _

theorem proper_utimensat (ht : Typed t origin) (hfd : OfType t fd (· ≠ .TTY))
    (times : Option (Timespec × Timespec)) : Proper t origin (utimensat net fd times) := by
  have hrest : ∀ {i d} {q : Routine}, d.object = origin i → q.family = d.type.family →
      ∀ change (end' : ℤ → Outcome), Proper t origin (do
        let ret ← onPath i d q change
        let _ ← drop i
        return end' ret) :=
    fun hd hq change _ ↦ (proper_onPath hd hq change).bind fun _ ↦ .drop fun _ ↦ proper_pure _
  refine proper_withFd ht hfd (proper_pure _) fun i d hd htty ↦ ?_
  cases htype : d.type with
  | TTY => exact absurd htype htty
  | SOCKET | PIPE =>
    have hneg : makeSceErrno EBADF < 0 := by decide
    dsimp only
    rw [Program.pure_eq, Program.ret_bind, if_pos hneg]
    exact .drop fun _ ↦ proper_pure _
  | FILE | DIRECTORY =>
    refine .bind ?_ fun ret ↦ .ite (fun _ ↦ .drop fun _ ↦ proper_pure _) fun hret ↦
      .bind (proper_newTimes times) fun r ↦ ?_
    · first
      | exact proper_use hd (by rw [htype]; rfl)
      | exact proper_onPath hd (by rw [htype]; rfl) _
    · cases r with
      | error ret => exact .drop fun _ ↦ proper_pure _
      | ok times => exact hrest hd (by rw [htype]; rfl) _ _

theorem proper_getsockopt (ht : Typed t origin) {sizeofTimeval : ℕ} {optname : SockOpt} {optlen : ℕ}
    (hfd : OfType t fd fun type ↦ type = .SOCKET ∨ optname.isTimeout ∧ optlen < sizeofTimeval)
    (level : ℤ) : Proper t origin (getsockopt net sizeofTimeval fd level optname optlen) :=
  proper_withFd ht hfd (proper_pure _) fun _ _ hd hsocket ↦
    .ite (fun _ ↦ .drop fun _ ↦ proper_pure _) fun hlong ↦
      (proper_getsockopt_ask hd (hsocket.resolve_right hlong) _ _).bind fun _ ↦
        .drop fun _ ↦ proper_pure _

theorem proper_setsockopt (ht : Typed t origin) {sizeofTimeval : ℕ} {optname : SockOpt} {optlen : ℕ}
    (hfd : OfType t fd fun type ↦ type = .SOCKET ∨ optname.isTimeout ∧ optlen < sizeofTimeval)
    (level : ℤ) (optval : ℕ) (timeout : ℤ × ℤ) :
    Proper t origin (setsockopt net sizeofTimeval fd level optname optval timeout optlen) := by
  refine proper_withFd ht hfd (proper_pure _) fun _ _ hd hsocket ↦
    .ite (fun _ ↦ .drop fun _ ↦ proper_pure _) fun hlong ↦
      (proper_use hd ?_).bind fun _ ↦ .drop fun _ ↦ proper_pure _
  rw [hsocket.resolve_right hlong]
  split <;> rfl

theorem proper_socketCall (ht : Typed t origin) (hfd : OfType t fd (· = .SOCKET)) {q : Routine}
    (hq : q.family = .net) (value : ℤ → ℤ) : Proper t origin (socketCall net fd q value) :=
  proper_withFd ht hfd (proper_pure _) fun _ d hd hsocket ↦
    (proper_use hd (by rw [hq, hsocket]; rfl)).bind fun _ ↦ .drop fun _ ↦ proper_pure _

theorem SocketCall.proper (ht : Typed t origin) (hfd : OfType t fd (· = .SOCKET))
    (c : SocketCall) : Proper t origin (c.steps net fd) := by
  cases c <;> exact proper_socketCall ht hfd rfl _

theorem proper_readdir (ht : Typed t origin) {dir : Dir} (hfd : OfType t dir.fd (· = .DIRECTORY)) :
    Proper t origin (readdir net (some dir)) := by
  refine proper_withFd ht hfd (proper_pure _) fun i d hd hdir ↦ .bind ?_ fun r ↦ .drop fun _ ↦
    .ite (fun _ ↦ proper_pure _) fun _ ↦ .ite (fun _ ↦ proper_fault) fun _ ↦
      .ite (fun _ ↦ proper_pure _) fun _ ↦ proper_pure _
  refine proper_kernel (right_of_type hd ?_)
  rw [hdir]
  rfl

theorem rewinddir_obeys (ht : Typed t origin) {dir : Dir}
    (hfd : OfType t dir.fd (· = .DIRECTORY)) :
    (rewinddir net (some dir)).Obeys (handling t) origin fun _ _ ↦ True := by
  refine obeys_withFd ht hfd trivial fun i d hi hd hdir ↦ ?_
  have huse : ∀ q : Routine, q.family = .fiosDirectory → Proper t origin (use i d q) :=
    fun q hq ↦ proper_use hd (by rw [hq, hdir]; rfl)
  have hobject : ∃ dh, origin i = .directory dh := by
    refine ⟨d.sceUid, ?_⟩
    rw [← hd, DescriptorTranslation.object, hdir]
  refine (huse _ rfl).obeys_bind fun path ↦ Proper.obeys_bind (proper_other rfl) fun r ↦ ?_
  dsimp only
  by_cases hneg : (if r.1 < 0 then r.1 else r.2) < 0
  · rw [if_pos hneg]
    exact ⟨trivial, fun _ _ ↦ trivial⟩
  · rw [if_neg hneg]
    refine (huse .sceFiosDHCloseSync rfl).obeys_bind fun _ ↦ ?_
    exact ⟨⟨hi, hobject⟩, fun _ _ ↦ ⟨trivial, fun _ _ ↦ trivial⟩⟩

def Plain.Fits (c : Plain) (P : DescriptorTypes → Prop) : Prop :=
  ∀ d type q, P d.type → c.entry d = some (type, q) →
    q.handle = d.sceUid ∧ q.family = d.type.family

theorem proper_plain (ht : Typed t origin) (hfd : OfType t fd P) {c : Plain} (hc : c.Fits P) :
    Proper t origin (c.steps net fd) := by
  unfold Plain.steps
  refine proper_withFd ht hfd ?_ fun i d hd hP ↦ .bind ?_ fun _ ↦ .drop fun _ ↦ proper_pure _
  · cases c.handle with
    | none => exact proper_pure _
    | some q => exact proper_handle rfl _ _
  · cases hentry : c.entry d with
    | none => exact proper_pure _
    | some r =>
      obtain ⟨type, q⟩ := r
      obtain ⟨hhandle, hfamily⟩ := hc d type q hP hentry
      exact (proper_transfer hd hhandle hfamily).bind fun _ ↦ proper_pure _

theorem proper_vector (ht : Typed t origin)
    (hfd : OfType t fd fun type ↦ type = .FILE ∨ type = .DIRECTORY) {v : VectorCall}
    (hv : ∀ n, (v.fios n).handle = n ∧ (v.fios n).family = .fiosFile) (mem : ℕ → UInt8)
    (iov : List (ℕ × ℕ)) : Proper t origin (v.steps net mem fd iov) := by
  unfold VectorCall.steps
  refine proper_withFd ht hfd ?_ fun i d hd hP ↦ .bind ?_ fun _ ↦ .drop fun _ ↦ proper_pure _
  · cases (v.plain 0).handle with
    | none => exact proper_pure _
    | some q => exact proper_handle rfl _ _
  · rcases hP with htype | htype
    · rw [htype]
      have hfamily : (v.fios d.sceUid).family = d.type.family := by
        rw [(hv _).2, htype]
        rfl
      exact (proper_transfer hd (hv _).1 hfamily).bind fun _ ↦ proper_pure _
    · rw [htype]
      exact proper_pure _

theorem Plain.Streamed.fits {c : Plain} {tty file socket pipe : ℤ → Request}
    (hc : c.Streamed tty file socket pipe) (htty : ∀ n, (tty n).handle = n ∧ (tty n).family = .io)
    (hfile : ∀ n, (file n).handle = n ∧ (file n).family = .fiosFile)
    (hsocket : ∀ n, (socket n).handle = n ∧ (socket n).family = .net)
    (hpipe : ∀ n, (pipe n).handle = n ∧ (pipe n).family = .msgPipe) : c.Fits fun _ ↦ True := by
  intro d type q _ h
  rcases hc.asked h with ⟨htype, -, rfl⟩ | ⟨htype, -, rfl⟩ | ⟨htype, -, rfl⟩ | ⟨htype, -, rfl⟩
  · rw [htype]
    exact htty _
  · rw [htype]
    exact hfile _
  · rw [htype]
    exact hsocket _
  · rw [htype]
    exact hpipe _

/-- That of `pread` and `pwrite` takes a socket or a pipe for a TTY. -/
theorem Plain.Positioned.fits {c : Plain} {file io : ℤ → Request} (hc : c.Positioned file io)
    (hfile : ∀ n, (file n).handle = n ∧ (file n).family = .fiosFile)
    (hio : ∀ n, (io n).handle = n ∧ (io n).family = .io) :
    c.Fits fun type ↦ type ≠ .SOCKET ∧ type ≠ .PIPE := by
  intro d type q hP h
  rw [hc] at h
  cases htype : d.type <;> rw [htype] at h hP <;> cases h
  · exact hfile _
  · exact absurd rfl hP.1
  · exact hio _
  · exact absurd rfl hP.2

theorem read_fits (len : ℕ) : (readPlain len).Fits fun _ ↦ True :=
  (readPlain_streamed len).fits (fun _ ↦ ⟨rfl, rfl⟩) (fun _ ↦ ⟨rfl, rfl⟩) (fun _ ↦ ⟨rfl, rfl⟩)
    fun _ ↦ ⟨rfl, rfl⟩

theorem write_fits (bytes : List UInt8) : (writePlain bytes).Fits fun _ ↦ True :=
  (writePlain_streamed bytes).fits (fun _ ↦ ⟨rfl, rfl⟩) (fun _ ↦ ⟨rfl, rfl⟩)
    (fun _ ↦ ⟨rfl, rfl⟩) fun _ ↦ ⟨rfl, rfl⟩

theorem pread_fits (len : ℕ) (off : ℤ) :
    (preadPlain len off).Fits fun type ↦ type ≠ .SOCKET ∧ type ≠ .PIPE :=
  (preadPlain_positioned len off).fits (fun _ ↦ ⟨rfl, rfl⟩) fun _ ↦ ⟨rfl, rfl⟩

theorem pwrite_fits (bytes : List UInt8) (off : ℤ) :
    (pwritePlain bytes off).Fits fun type ↦ type ≠ .SOCKET ∧ type ≠ .PIPE :=
  (pwritePlain_positioned bytes off).fits (fun _ ↦ ⟨rfl, rfl⟩) fun _ ↦ ⟨rfl, rfl⟩

theorem proper_dropAll (locks : List Entry) : Proper t origin (dropAll locks) := by
  induction locks with
  | nil => exact proper_pure _
  | cons i locks ih => exact .drop fun _ ↦ ih

theorem proper_epollControl (hd : d.object = origin i) (hsocket : ¬ d.type ≠ .SOCKET) (eid : ℤ)
    (ev : EpollEvent) : Proper t origin (use i d (.sceNetEpollControl eid ev)) :=
  proper_use hd (by rw [not_not.mp hsocket]; rfl)

theorem proper_pollFd (ht : Typed t origin) (eid : ℤ) (n : ℕ) (p : PollFd) :
    Proper t origin (pollFd eid n p) := by
  refine .ite (fun _ ↦ proper_pure _) fun _ ↦ .ite (fun _ ↦ proper_pure _) fun _ ↦
    proper_withFd ht ofType_true ?_ fun i d hd _ ↦ ?_
  · exact (proper_other rfl).bind fun _ ↦ .ite (fun _ ↦ proper_pure _) fun _ ↦ proper_pure _
  · exact .ite (fun _ ↦ .drop fun _ ↦ proper_pure _) fun hsocket ↦
      (proper_epollControl hd hsocket _ _).bind fun _ ↦ proper_pure _

theorem proper_poll (ht : Typed t origin) (pfd : List PollFd) (timeout : ℤ) :
    Proper t origin (poll net pfd timeout) := by
  have hloop : ∀ eid pfd n, Proper t origin (pollLoop eid n pfd) := by
    intro eid pfd
    induction pfd with
    | nil => exact fun n ↦ proper_pure _
    | cons p pfd ih =>
      exact fun n ↦ (proper_pollFd ht eid n p).bind fun _ ↦
        (ih (n + 1)).bind fun _ ↦ proper_pure _
  refine .ite (fun _ ↦ proper_pure _) fun _ ↦ .ite (fun _ ↦ ?_) fun _ ↦ ?_
  · exact (proper_other rfl).bind fun _ ↦ proper_pure _
  · exact (proper_other rfl).bind fun eid ↦ .ite (fun _ ↦ proper_pure _) fun _ ↦
      (hloop eid pfd 0).bind fun r ↦ (proper_other rfl).bind fun _ ↦ (proper_other rfl).bind
        fun _ ↦ (proper_dropAll _).bind fun _ ↦ proper_pure _

theorem proper_selectFd (ht : Typed t origin) (eid : ℤ) (sets : FdSets) (i : ℕ) :
    Proper t origin (selectFd eid sets i) := by
  refine .ite (fun _ ↦ proper_pure _) fun _ ↦
    proper_withFd ht ofType_true (proper_pure _) fun i d hd _ ↦ ?_
  exact .ite (fun _ ↦ .drop fun _ ↦ proper_pure _) fun hsocket ↦
    (proper_epollControl hd hsocket _ _).bind fun _ ↦ proper_pure _

theorem proper_markAll (sets : FdSets) (res : ℤ) (events : List EpollEvent) :
    Proper t origin (markAll sets res events) := by
  have hset : ∀ on fd set, Proper t origin (fdSetIf on fd set) := by
    refine fun on fd set ↦ .ite (fun _ ↦ ?_) fun _ ↦ proper_pure _
    cases set with
    | none => exact ⟨trivial, fun x ↦ x.elim⟩
    | some set => exact proper_pure _
  induction events generalizing sets res with
  | nil => exact proper_pure _
  | cons e events ih =>
    have hmark : Proper t origin (markEvent sets e) :=
      (hset _ _ _).bind fun _ ↦ (hset _ _ _).bind fun _ ↦ (hset _ _ _).bind fun _ ↦ proper_pure _
    exact hmark.bind fun r ↦ ih _ _

theorem proper_select (ht : Typed t origin) (nfds : ℤ) (sets : FdSets)
    (timeout : Option (ℤ × ℤ)) : Proper t origin (select net nfds sets timeout) := by
  have hloop : ∀ eid fds, Proper t origin (selectLoop eid sets fds) := by
    intro eid fds
    induction fds with
    | nil => exact proper_pure _
    | cons i fds ih =>
      exact (proper_selectFd ht eid sets i).bind fun _ ↦ ih.bind fun _ ↦ proper_pure _
  refine .ite (fun _ ↦ proper_pure _) fun _ ↦ .ite (fun _ ↦ .ite (fun _ ↦ ?_) fun _ ↦
    proper_pure _) fun _ ↦ ?_
  · exact (proper_other rfl).bind fun _ ↦ proper_pure _
  · refine (proper_other rfl).bind fun eid ↦ .ite (fun _ ↦ proper_pure _) fun _ ↦
      (hloop eid _).bind fun locks ↦ (proper_other rfl).bind fun nev ↦ .bind ?_ fun _ ↦
        (proper_other rfl).bind fun _ ↦ (proper_dropAll _).bind fun _ ↦ proper_pure _
    cases nev with
    | error n => exact proper_pure _
    | ok events => exact (proper_markAll _ _ _).bind fun _ ↦ proper_pure _

theorem FdCall.handles (ht : Typed t origin) {c : FdCall} (hc : ¬ c.Duplicates)
    (hfd : ∀ fd ∈ c.descriptor, OfType t fd c.Takes) :
    (c.steps net).Obeys (handling t) origin fun _ _ ↦ True := by
  have hproper : ∀ {p : Call Outcome}, Proper t origin p →
      p.Obeys (handling t) origin fun _ _ ↦ True := fun h ↦ h.mono fun _ _ _ ↦ trivial
  have hmap : ∀ {γ : Type} {p : Call γ} (f : γ → Outcome), Proper t origin p →
      (f <$> p).Obeys (handling t) origin fun _ _ ↦ True :=
    fun f h ↦ hproper (h.bind fun _ ↦ proper_pure _)
  cases c with
  | read fd len => exact hmap _ (proper_plain ht ofType_true (read_fits len))
  | write fd bytes => exact hmap _ (proper_plain ht ofType_true (write_fits bytes))
  | pread fd len off => exact hmap _ (proper_plain ht (hfd fd rfl) (pread_fits len off))
  | pwrite fd bytes off => exact hmap _ (proper_plain ht (hfd fd rfl) (pwrite_fits bytes off))
  | readv mem fd iov | writev mem fd iov | preadv mem fd iov off | pwritev mem fd iov off =>
    exact hmap _ (proper_vector ht (hfd fd rfl) (fun _ ↦ ⟨rfl, rfl⟩) _ _)
  | lseek fd off dir => exact hproper (proper_lseek ht off dir)
  | fsync fd => exact hproper (proper_fsync ht)
  | ftruncate fd length => exact hproper (proper_ftruncate ht length)
  | fstat fd => exact hproper (proper_fstat ht)
  | fstatvfs fd => exact hproper (proper_fstatvfs ht (hfd fd rfl))
  | fchmod fd mode => exact hproper (proper_fchmod ht (hfd fd rfl) mode)
  | fchdir fd => exact hproper (proper_fchdir ht)
  | utimensat fd times => exact hproper (proper_utimensat ht (hfd fd rfl) times)
  | readdir dirp =>
    cases dirp with
    | none => exact hmap _ (proper_pure _)
    | some dir => exact hmap _ (proper_readdir ht (hfd dir.fd rfl))
  | rewinddir dirp =>
    cases dirp with
    | none => exact hmap _ (proper_pure _)
    | some dir => exact Program.obeys_bind.mpr (rewinddir_obeys ht (hfd dir.fd rfl))
  | fcntl fd cmd arg => exact hproper (proper_fcntl ht hc arg)
  | poll pfd timeout => exact hmap _ (proper_poll ht pfd timeout)
  | select nfds sets timeout => exact hmap _ (proper_select ht nfds sets timeout)
  | getsockopt sizeofTimeval s level optname optlen =>
    exact hmap _ (proper_getsockopt ht (hfd s rfl) _)
  | setsockopt sizeofTimeval s level optname optval timeout optlen =>
    exact hproper (proper_setsockopt ht (hfd s rfl) _ _ _)
  | socketCall s c => exact hproper (c.proper ht (hfd s rfl))

end Proper

/-- The counts cover the references, the open entries have the types of their handles, and all uses
so far have been right. -/
structure Sane (s : Session) : Prop where
  covers : Covers s.table fun _ ↦ 0
  typed : Typed s.table s.origin
  right : ∀ u ∈ s.uses, u.Right

/-- What becomes of a session while a call holds some entries. -/
structure Handled (t : Table) (r : Multiset Entry × (Entry → KernelObject)) (s : Session) :
    Prop where
  held : Held t r.1 s.table
  origin : s.origin = r.2
  object : ∀ sl i, t.fdmap sl = some i → (s.table.pool i).object = r.2 i
  clear : ∀ i, (s.table.pool i).refCount = 0 → s.table.pool i = {}
  right : ∀ u ∈ s.uses, u.Right

section Sessions

variable {net : NetErrno → ℤ} {s s' : Session} {t t' : Table} {origin : Entry → KernelObject}
  {o : KernelObject} {fd : ℤ}

theorem Covers.inUse (hc : Covers t fun _ ↦ 0) : InUse t := by
  intro s i hs
  have := hc.slot_pos hs
  omega

theorem object_addRef (n : ℤ) (i j : Entry) :
    ((t.addRef i n).pool j).object = (t.pool j).object := by
  obtain ⟨huid, htype⟩ := t.addRef_object (i := i) n j
  unfold DescriptorTranslation.object
  rw [huid, htype]

theorem Handled.addRef {r : Multiset Entry × (Entry → KernelObject)} (h : Handled t r s)
    {g : Multiset Entry} {i : Entry} {n : ℤ} (hg : Held t g (s.table.addRef i n))
    (hpos : (s.table.pool i).refCount + n ≠ 0) :
    Handled t (g, r.2) { s with table := s.table.addRef i n } where
  held := hg
  origin := h.origin
  object sl j hj := (object_addRef n i j).trans (h.object sl j hj)
  clear j hj := by
    dsimp only at hj ⊢
    by_cases hji : j = i
    · subst hji
      rw [Table.addRef_refCount, if_pos rfl] at hj
      exact absurd hj hpos
    · rw [Table.addRef_pool_of_ne hji] at hj ⊢
      exact h.clear j hj
  right := h.right

theorem Handled.refCount_pos {r : Multiset Entry × (Entry → KernelObject)} (h : Handled t r s)
    {i : Entry} (hi : 0 < (t.pool i).refCount) : 0 < (s.table.pool i).refCount := by
  rw [h.held.refCount]
  omega

theorem Handled.storeUid {r : Multiset Entry × (Entry → KernelObject)} (h : Handled t r s)
    {i : Entry} {dh : ℤ} (uid : ℤ)
    (hheld : Held t r.1 (s.table.setEntry i { s.table.pool i with sceUid := uid }))
    (hi : 0 < (t.pool i).refCount) (hobject : (s.table.pool i).object = .directory dh) :
    Handled t (r.1, Function.update r.2 i (.directory uid))
      { s with
        table := s.table.setEntry i { s.table.pool i with sceUid := uid }
        origin := Function.update s.origin i (.directory uid) } where
  held := hheld
  origin := congrArg (Function.update · i _) h.origin
  object sl j hj := by
    have hdir : (s.table.pool i).type = .DIRECTORY := by
      have heq : (s.table.pool i).object =
          (⟨dh, .DIRECTORY, 0⟩ : DescriptorTranslation).object := hobject
      exact object_type heq
    by_cases hji : j = i
    · subst hji
      simp [DescriptorTranslation.object, hdir]
    · simpa [hji] using h.object sl j hj
  clear j hj := by
    by_cases hji : j = i
    · subst hji
      have hpos := h.refCount_pos hi
      simp only [Table.setEntry_pool, Function.update_self] at hj
      omega
    · simp only [Table.setEntry_pool, Function.update_of_ne hji] at hj ⊢
      exact h.clear j hj
  right := h.right

theorem watch_eq {σ : Type} {K : (q : KernelAsk) → σ → q.Answer × σ} {k k' k₁ : σ} {q : Ask}
    {x x₁ : q.Answer} (hx : watch net K q (s, k) = some (x, s', k'))
    (hserve : serve net K q (s.table, k) = some (x₁, t, k₁)) :
    x = x₁ ∧ s' = ⟨t, q.newOrigin s.origin, q.uses s ++ s.uses⟩ := by
  rw [watch, hserve] at hx
  obtain ⟨rfl, hs⟩ := Prod.mk.inj (Option.some.inj hx)
  exact ⟨rfl, (Prod.mk.inj hs).1.symm⟩

theorem Handled.serve {σ : Type} {K : (q : KernelAsk) → σ → q.Answer × σ} {k k' : σ}
    (ht : InUse t) {r : Multiset Entry × (Entry → KernelObject)} {q : Ask} {x : q.Answer}
    (h : Handled t r s) (hmay : (holding.prod (handling t)).may r q)
    (hx : watch net K q (s, k) = some (x, s', k')) :
    (handling t).can r.2 q x ∧ Handled t ((holding.prod (handling t)).next r q x) s' := by
  obtain ⟨res, hserve, -⟩ := Option.map_eq_some_iff.mp hx
  have hheld := h.held.serve ht hmay.1 hserve
  have hslots := h.held.fdmap
  cases q with
  | grab fd =>
    obtain rfl := Option.some.inj hserve
    obtain ⟨rfl, rfl⟩ := watch_eq hx rfl
    have hout := fdGrab_outcome s.table fd
    dsimp only at hheld ⊢
    generalize fdGrab s.table fd = res at hout hheld ⊢
    cases hout with
    | refused => exact ⟨fun i hi ↦ (nomatch hi), hheld, h.origin, h.object, h.clear, h.right⟩
    | grabbed sl i hi =>
      obtain ⟨hfd, hsl⟩ := openAt_eq_some.mp hi
      have := h.refCount_pos (ht sl i (hslots ▸ hsl))
      refine ⟨fun j hj ↦ ?_, h.addRef hheld (by omega)⟩
      obtain rfl := Option.some.inj hj
      exact ⟨sl, openAt_eq_some.mpr ⟨hfd, hslots ▸ hsl⟩⟩
  | drop i =>
    have hcount : 1 < (s.table.pool i).refCount := by
      have := Multiset.count_pos.mpr (show i ∈ r.1 from hmay.1)
      have := h.held.inUse i hmay.1
      rw [h.held.refCount]
      omega
    have hclosing : s.closing i = [] := if_neg (by omega)
    obtain rfl := Option.some.inj ((h.held.serve_drop hmay.1).symm.trans hserve)
    obtain ⟨rfl, rfl⟩ := watch_eq hx hserve
    dsimp only [Ask.uses, Ask.newOrigin]
    rw [hclosing, List.nil_append]
    exact ⟨trivial, h.addRef hheld (by omega)⟩
  | load i =>
    obtain rfl := Option.some.inj hserve
    obtain ⟨rfl, rfl⟩ := watch_eq hx rfl
    obtain ⟨sl, hsl⟩ := hmay.2
    exact ⟨h.object sl i hsl, hheld, h.origin, h.object, h.clear, h.right⟩
  | storeUid i uid =>
    obtain rfl := Option.some.inj hserve
    obtain ⟨rfl, rfl⟩ := watch_eq hx rfl
    obtain ⟨⟨sl, hsl⟩, dh, hdh⟩ := hmay.2
    exact ⟨trivial, h.storeUid uid hheld (h.held.inUse i hmay.1) ((h.object sl i hsl).trans hdh)⟩
  | duplicate => exact hmay.1.elim
  | pass => exact hmay.2.elim
  | fault => cases hserve
  | kernel q =>
    obtain rfl := Option.some.inj hserve
    obtain ⟨rfl, rfl⟩ := watch_eq hx rfl
    refine ⟨trivial, hheld, h.origin, h.object, h.clear, fun u hu ↦ ?_⟩
    rcases List.mem_append.mp hu with hu | hu
    · exact hmay.2 u (h.origin ▸ hu)
    · exact h.right u hu

theorem Sane.handled (h : Sane s) : Handled s.table (0, s.origin) s where
  held := ⟨rfl, fun i ↦ by simp, fun i hi ↦ by simp at hi⟩
  origin := rfl
  object := h.typed
  clear := h.covers.clear
  right := h.right

theorem Handled.sane (hc : Covers t fun _ ↦ 0) (h : Handled t (0, origin) s) : Sane s where
  covers :=
    { count := fun i ↦ by
        have := hc.count i
        have := h.held.refCount i
        rw [h.held.fdmap]
        simp only [Multiset.count_zero] at this
        omega
      clear := h.clear }
  typed sl i hi := by
    rw [h.origin]
    exact h.object sl i (h.held.fdmap ▸ hi)
  right := h.right

theorem Sane.frame (h : Sane s) (hc : Covers t fun _ ↦ 0) {named : Slot → Prop}
    {dropped : Entry → Prop} (hf : Frame named dropped s.table t) {uses : List Use}
    (huses : ∀ u ∈ uses, u.Right) : Sane ⟨t, s.origin, uses ++ s.uses⟩ where
  covers := hc
  typed sl i hi := by
    obtain ⟨sl', hsl'⟩ : ∃ sl', s.table.fdmap sl' = some i := by
      rcases hf.target sl i hi with hi | ⟨sl', -, hi⟩
      · exact ⟨sl, hi⟩
      · exact ⟨sl', hi⟩
    obtain ⟨huid, htype⟩ := hf.object sl i hi
    refine Eq.trans ?_ (h.typed sl' i hsl')
    unfold DescriptorTranslation.object
    rw [huid, htype]
  right u hu := (List.mem_append.mp hu).elim (huses u) (h.right u)

theorem Sane.logged (h : Sane s) (hslots : t.fdmap = s.table.fdmap) (hpool : t.pool = s.table.pool)
    {uses : List Use} (huses : ∀ u ∈ uses, u.Right) : Sane ⟨t, s.origin, uses ++ s.uses⟩ where
  covers := ⟨fun i ↦ by
    rw [hslots, hpool]
    exact h.covers.count i, fun i ↦ by
    rw [hpool]
    exact h.covers.clear i⟩
  typed sl i hi := by
    rw [hpool]
    exact h.typed sl i (hslots ▸ hi)
  right u hu := (List.mem_append.mp hu).elim (huses u) (h.right u)

theorem Sane.closing (h : Sane s) {sl : Slot} {i : Entry} (hi : s.table.fdmap sl = some i) :
    ∀ u ∈ s.closing i, u.Right := by
  intro u hu
  unfold Session.closing at hu
  dsimp only at hu
  split at hu
  · obtain rfl := List.mem_singleton.mp hu
    have hobject := h.typed sl i hi
    exact ⟨(object_handle _).symm.trans (congrArg _ hobject), congrArg KernelObject.family hobject⟩
  · cases hu

theorem Sane.releasing (h : Sane s) : ∀ u ∈ s.releasing fd, u.Right := by
  unfold Session.releasing
  cases hopen : openAt s.table fd with
  | none => exact fun u hu ↦ (nomatch hu)
  | some p => exact h.closing (openAt_eq_some.mp hopen).2

theorem Sane.replacing (h : Sane s) (oldfd newfd : ℤ) :
    ∀ u ∈ s.replacing oldfd newfd, u.Right := by
  intro u hu
  unfold Session.replacing at hu
  split at hu
  · cases hu
  · split at hu
    · cases hu
    · exact h.releasing u hu

theorem Sane.release (h : Sane s) (fd r : ℤ) :
    Sane ⟨(releaseDescriptor net s.table fd r).2, s.origin, s.releasing fd ++ s.uses⟩ := by
  have hout := releaseDescriptor_outcome net s.table fd r
  have hframe : Frame (fun _ ↦ True) (fun _ ↦ True) s.table _ :=
    frame_release h.covers hout fun _ _ ↦ trivial
  exact h.frame (h.covers.release hout) hframe h.releasing

theorem Sane.duplicate (h : Sane s) (fd minfd : ℤ) :
    Sane { s with table := (duplicateDescriptor s.table fd minfd).2 } := by
  have hout := duplicateDescriptor_outcome s.table fd minfd
  have hframe : Frame (fun _ ↦ True) (fun _ ↦ True) s.table _ :=
    frame_duplicate hout fun _ _ ↦ trivial
  have huses : ∀ u ∈ ([] : List Use), u.Right := fun u hu ↦ (nomatch hu)
  exact h.frame (h.covers.duplicate hout) hframe huses

theorem Sane.dup2 (h : Sane s) (oldfd newfd r : ℤ) :
    Sane ⟨(Descriptor.dup2 net s.table oldfd newfd r).2, s.origin,
      s.replacing oldfd newfd ++ s.uses⟩ := by
  unfold Descriptor.dup2
  cases hslot : slotOf newfd with
  | none => exact h.logged rfl rfl (h.replacing oldfd newfd)
  | some sl =>
    have hout := duplicateDescriptor2_outcome net s.table oldfd sl r
    have hframe : Frame (fun _ ↦ True) (fun _ ↦ True) s.table _ :=
      frame_duplicate2 h.covers hout (fun _ _ ↦ trivial) trivial
    have hsane := h.frame (h.covers.duplicate2 hout) hframe (h.replacing oldfd newfd)
    dsimp only
    generalize duplicateDescriptor2 net s.table oldfd sl r = res at hsane ⊢
    obtain ⟨_ | _, _⟩ := res <;> exact hsane

theorem undone_append (calls : List KernelCall) (h : t'.calls = calls ++ t.calls) :
    Session.undone t t' o = calls.filterMap fun
      | .close o' _ => some ⟨o, o'.handle, o'.family⟩
      | .created _ => none := by
  unfold Session.undone
  rw [h, List.length_append, Nat.add_sub_cancel, List.take_left']
  rfl

theorem right_undone (calls : List KernelCall) (hcalls : t'.calls = calls ++ t.calls)
    (hclose : ∀ o' r, .close o' r ∈ calls → o' = o) : ∀ u ∈ Session.undone t t' o, u.Right := by
  intro u hu
  rw [undone_append calls hcalls] at hu
  obtain ⟨c, hc, hu⟩ := List.mem_filterMap.mp hu
  cases c with
  | created => cases hu
  | close o' r =>
    obtain rfl := hclose o' r hc
    obtain rfl := Option.some.inj hu
    exact ⟨rfl, rfl⟩

theorem Sane.created_error (h : Sane s) {e : ℤ} (calls : List KernelCall)
    (hslots : t.fdmap = s.table.fdmap) (hpool : t.pool = s.table.pool)
    (hcalls : t.calls = calls ++ s.table.calls)
    (hclose : ∀ o' r, .close o' r ∈ calls → o' = o) : Sane (s.created o (.error e, t)) :=
  h.logged hslots hpool (right_undone calls hcalls hclose)

theorem install_outcome (t : Table) (uid : ℤ) (type : DescriptorTypes) :
    (∀ undo, install t uid type undo = (.error EMFILE, undo t)) ∨
    ∃ sl i, t.fdmap sl = none ∧ (t.pool i).refCount = 0 ∧ ∀ undo,
      install t uid type undo = (.ok sl, (t.setSlot sl (some i)).setEntry i ⟨uid, type, 1⟩) := by
  have hout := acquireDescriptor_outcome t
  unfold install
  generalize acquireDescriptor t = res at hout ⊢
  cases hout with
  | full => exact .inl fun _ ↦ rfl
  | taken sl i hs hi =>
    refine .inr ⟨sl, i, hs.free, hi, fun _ ↦ Prod.ext rfl ?_⟩
    dsimp only
    rw [Table.fillSlot, Table.setEntry_fdmap, Table.setSlot_fdmap, Function.update_self]
    simp [Table.fill, Table.setEntry]

theorem Sane.created_ok (h : Sane s) {uid : ℤ} {type : DescriptorTypes}
    (ho : (⟨uid, type, 1⟩ : DescriptorTranslation).object = o) {sl : Slot} {i : Entry}
    (hsl : s.table.fdmap sl = none) (hi : (s.table.pool i).refCount = 0) :
    Sane (s.created o (.ok sl,
      ((s.table.call (.created o)).setSlot sl (some i)).setEntry i ⟨uid, type, 1⟩)) := by
  have hcovers : Covers (((s.table.call (.created o)).setSlot sl (some i)).setEntry i
      ⟨uid, type, 1⟩) fun _ ↦ 0 := by
    have hlogged : Covers (s.table.call (.created o)) fun _ ↦ 0 := ⟨h.covers.count, h.covers.clear⟩
    have htaken := (hlogged.taken (s := sl) hsl hi).refill (i := i) (d := ⟨uid, type, 1⟩)
      (by simp) (by simp)
    simpa [Table.setEntry] using htaken
  have hstored : (s.created o (.ok sl,
      ((s.table.call (.created o)).setSlot sl (some i)).setEntry i ⟨uid, type, 1⟩)).origin =
      Function.update s.origin i o := by
    simp [Session.created, Session.stored]
  refine ⟨hcovers, fun sl' j hj ↦ ?_, fun u hu ↦ ?_⟩
  · rw [hstored]
    by_cases hji : j = i
    · subst hji
      simpa [Session.created] using ho
    · have hsl' : s.table.fdmap sl' = some j := by
        by_cases heq : sl' = sl
        · subst heq
          simp [Session.created, Ne.symm hji] at hj
        · simpa [Session.created, heq] using hj
      simpa [Session.created, hji] using h.typed sl' j hsl'
  · exact (List.mem_append.mp hu).elim (right_undone [.created o] rfl (by simp) u) (h.right u)

theorem Sane.install (h : Sane s) (uid : ℤ) (type : DescriptorTypes)
    (ho : (⟨uid, type, 1⟩ : DescriptorTranslation).object = o) {undo : Table → Table}
    (hundo : undo = id ∨ ∃ r, undo = fun t ↦ t.call (.close o r)) :
    Sane (s.created o (Descriptor.install (s.table.call (.created o)) uid type undo)) := by
  rcases install_outcome (s.table.call (.created o)) uid type with heq | ⟨sl, i, hsl, hi, heq⟩
  · rw [heq]
    rcases hundo with rfl | ⟨r, rfl⟩
    · exact h.created_error [.created o] rfl rfl rfl (by simp)
    · exact h.created_error [.close o r, .created o] rfl rfl rfl (by simp)
  · rw [heq]
    exact h.created_ok ho hsl hi

theorem Sane.refused (h : Sane s) (o : KernelObject) (e : ℤ) :
    Sane (s.created o (.error e, s.table)) :=
  h.created_error [] rfl rfl rfl fun _ _ hc ↦ (nomatch hc)

theorem Sane.opened (h : Sane s) (type : DescriptorTypes) (ret handle r : ℤ) (e : ℤ → ℤ)
    (close : ℤ → KernelObject) (ho : (⟨handle, type, 1⟩ : DescriptorTranslation).object = o)
    (hclose : close handle = o) {res : ℤ × Table}
    (hres : res = Descriptor.opened s.table ret handle o) :
    Sane (s.created o (if res.1 < 0 then (.error (e res.1), res.2)
      else Descriptor.install res.2 res.1 type fun t ↦ t.call (.close (close res.1) r))) := by
  subst hres
  unfold Descriptor.opened
  by_cases hret : ret < 0
  · simp only [if_pos hret]
    exact h.refused o _
  · simp only [if_neg hret]
    by_cases hneg : handle < 0
    · rw [if_pos hneg]
      exact h.created_error [.created o] rfl rfl rfl (by simp)
    · rw [if_neg hneg, hclose]
      exact h.install handle type ho (.inr ⟨r, rfl⟩)

theorem Sane.open (h : Sane s) (k : Answers) (fullPath : Except ℤ String) {flags : BitVec 32}
    (hdir : fullPath.isOk → isDir k = 0 → 0 ≤ k.fhOpen → flags &&& O_DIRECTORY ≠ 0) :
    Sane (s.created (openedObject k flags) (Descriptor.open' net s.table k fullPath flags)) := by
  cases fullPath with
  | error e => exact h.refused _ e
  | ok p =>
    replace hdir := hdir rfl
    unfold Descriptor.open' openedObject
    extract_lets dir errno
    by_cases hisdir : isDir k = 0
    · by_cases hflag : flags &&& O_DIRECTORY ≠ 0
      · rw [if_pos (show isDir k = 0 ∧ flags &&& O_DIRECTORY ≠ 0 from ⟨hisdir, hflag⟩)]
        by_cases hcreate : dir ∧ flags &&& O_DIRECTORY ≠ 0 ∧ flags &&& O_CREAT ≠ 0 ∧
            k.dirCreate < 0 ∧ errno ≠ EEXIST
        · rw [if_pos hcreate]
          exact h.refused _ _
        · rw [if_neg hcreate]
          refine h.opened (if dir then .DIRECTORY else .FILE) k.dhOpen k.dh k.close
            (sceErrnoToErrno net · .FIOS) (fun ret ↦ if dir then .directory ret else .file ret) ?_
            (if_pos hisdir) (if_pos ⟨hisdir, hflag⟩)
          rw [if_pos hisdir]
          rfl
      · have hret : k.fhOpen < 0 := not_le.mp fun hopen ↦ hflag (hdir hisdir hopen)
        have hopened : Descriptor.opened s.table k.fhOpen k.fh (.file k.fh) = (k.fhOpen, s.table) :=
          if_pos hret
        have hcreate : ¬ (dir ∧ flags &&& O_DIRECTORY ≠ 0 ∧ flags &&& O_CREAT ≠ 0 ∧
          k.dirCreate < 0 ∧ errno ≠ EEXIST) := fun h ↦ hflag h.2.1
        have hfile : ¬ (dir ∧ flags &&& O_DIRECTORY ≠ 0) := fun h ↦ hflag h.2
        rw [if_neg hcreate, if_neg hfile, if_neg hfile, hopened]
        dsimp only
        rw [if_pos hret]
        exact h.refused _ _
    · have hfile : ¬ (dir ∧ flags &&& O_DIRECTORY ≠ 0) := fun h ↦ hisdir h.1
      rw [if_neg (show ¬ (isDir k = 0 ∧ flags &&& O_DIRECTORY ≠ 0) from hfile),
        if_neg fun h ↦ hisdir h.1]
      refine h.opened (if dir then .DIRECTORY else .FILE) k.fhOpen k.fh k.close
        (sceErrnoToErrno net · .FIOS) (fun ret ↦ if dir then .directory ret else .file ret) ?_
        (if_neg hisdir) (if_neg hfile)
      rw [if_neg hisdir]
      rfl

theorem Sane.socket (h : Sane s) (k : Answers) :
    Sane (s.created (.socket k.netSocket) (Descriptor.socket net s.table k)) := by
  unfold Descriptor.socket
  extract_lets res
  by_cases hres : res < 0
  · rw [if_pos hres]
    exact h.refused _ _
  · rw [if_neg hres]
    exact h.install res .SOCKET rfl (.inl rfl)

theorem Sane.accept (h : Sane s) (k : Answers) (hfd : OfType s.table fd (· = .SOCKET)) :
    Sane ⟨(Descriptor.accept net s.table k fd).2,
      s.stored (.socket k.netAccept) (Descriptor.accept net s.table k fd),
      s.accepting fd ++ s.uses⟩ := by
  have hout := fdGrab_outcome s.table fd
  unfold Descriptor.accept Session.accepting
  generalize fdGrab s.table fd = res at hout ⊢
  cases hout with
  | refused hopen => exact h.logged rfl rfl fun u hu ↦ (nomatch hu)
  | grabbed sl i hopen =>
    have hsl := (openAt_eq_some.mp hopen).2
    have hpos := h.covers.slot_pos hsl
    have huses : ∀ u ∈ Session.closing { s with table := s.table.addRef i 1 } i ++
        [⟨s.origin i, ((s.table.addRef i 1).pool i).sceUid, .net⟩], u.Right := by
      have hclosing : Session.closing { s with table := s.table.addRef i 1 } i = [] := by
        refine if_neg ?_
        rw [Table.addRef_refCount, if_pos rfl]
        omega
      have hobject := h.typed sl i hsl
      intro u hu
      rw [hclosing, List.nil_append, (Table.addRef_object 1 i).1] at hu
      obtain rfl := List.mem_singleton.mp hu
      refine ⟨(object_handle _).symm.trans (congrArg _ hobject), ?_⟩
      rw [← hobject, object_family, hfd sl i hopen]
      rfl
    dsimp only
    by_cases hres : k.netAccept < 0
    · rw [if_pos hres, if_pos hres, fdDrop_grabbed (by omega)]
      exact h.logged rfl rfl huses
    · have hdrop : (fdDrop net ((s.table.addRef i 1).call (.created (.socket k.netAccept))) i
          k.close).2 = s.table.call (.created (.socket k.netAccept)) :=
        fdDrop_grabbed (t := s.table.call (.created (.socket k.netAccept)))
          (show 0 < (s.table.pool i).refCount by omega)
      rw [if_neg hres, if_neg hres, hdrop]
      have hinstall := h.install k.netAccept .SOCKET rfl (.inl (Eq.refl id))
      exact ⟨hinstall.covers, hinstall.typed, fun u hu ↦
        (List.mem_append.mp hu).elim (huses u) (h.right u)⟩

theorem Sane.pipe (h : Sane s) (k : Answers) :
    Sane ⟨(Descriptor.pipe net s.table k).2, s.piped k.msgPipe,
      Session.undone s.table (Descriptor.pipe net s.table k).2 (.msgPipe k.msgPipe) ++ s.uses⟩ := by
  unfold Descriptor.pipe Session.piped
  extract_lets ret undo
  by_cases hret : ret < 0
  · rw [if_pos hret, if_pos hret]
    exact h.refused (.msgPipe ret) 0
  · rw [if_neg hret, if_neg hret]
    have hundo : ∀ t', t'.calls = [.created (.msgPipe ret)] ++ s.table.calls →
        ∀ u ∈ Session.undone s.table (undo t') (.msgPipe ret), u.Right := by
      intro t' hcalls
      have hcalls' : (undo t').calls =
          [.close (.msgPipe ret) k.close, .created (.msgPipe ret)] ++ s.table.calls := by
        change _ :: t'.calls = _
        rw [hcalls]
        rfl
      exact right_undone _ hcalls' fun o' r hc ↦ by simp at hc; exact hc.1
    rcases install_outcome (s.table.call (.created (.msgPipe ret))) ret .PIPE
      with heq | ⟨sl, i, hsl, hi, heq⟩
    · rw [heq, heq]
      exact h.logged (t := undo (s.table.call (.created (.msgPipe ret)))) rfl rfl (hundo _ rfl)
    · have hok := h.created_ok (o := .msgPipe ret) (show
        (⟨ret, .PIPE, 1⟩ : DescriptorTranslation).object = .msgPipe ret from rfl) hsl hi
      have hcalls : (((s.table.call (.created (.msgPipe ret))).setSlot sl (some i)).setEntry i
          ⟨ret, .PIPE, 1⟩).calls = [.created (.msgPipe ret)] ++ s.table.calls := rfl
      rw [heq, heq]
      generalize ((s.table.call (.created (.msgPipe ret))).setSlot sl (some i)).setEntry i
        ⟨ret, .PIPE, 1⟩ = t₁ at hok hcalls ⊢
      have hdup := hok.duplicate sl.val 0
      have hout := duplicateDescriptor_outcome t₁ sl.val 0
      unfold secondEnd
      dsimp only [Session.created] at hdup ⊢
      generalize duplicateDescriptor t₁ sl.val 0 = res at hout hdup ⊢
      cases hout with
      | refused | full =>
        exact ⟨⟨hdup.covers.count, hdup.covers.clear⟩, hdup.typed, fun u hu ↦
          (List.mem_append.mp hu).elim (hundo t₁ hcalls u) (h.right u)⟩
      | shared =>
        exact ⟨hdup.covers, hdup.typed, fun u hu ↦ (List.mem_append.mp hu).elim
          (right_undone [.created (.msgPipe ret)] hcalls (by simp) u) (h.right u)⟩

theorem Sane.dupfd (h : Sane s) {σ : Type} {K : (q : KernelAsk) → σ → q.Answer × σ} {k k' : σ}
    {arg : ℕ} {out : Outcome}
    (hrun : (fcntl net fd .F_DUPFD arg).run (watch net K) (s, k) = some (out, s', k')) :
    Sane s' := by
  rw [fcntl_dupfd] at hrun
  split at hrun
  · obtain ⟨-, hs⟩ := Prod.mk.inj (Option.some.inj hrun)
    obtain ⟨rfl, -⟩ := Prod.mk.inj hs
    exact h
  · have hdup := h.duplicate fd arg
    simp only [Program.run_ask, watch, serve, Option.map_some, Option.bind_some] at hrun
    generalize duplicateDescriptor s.table fd arg = res at hrun hdup
    obtain ⟨_ | _, t⟩ := res
    all_goals
      obtain ⟨-, hs⟩ := Prod.mk.inj (Option.some.inj hrun)
      obtain ⟨rfl, -⟩ := Prod.mk.inj hs
      exact hdup

theorem Sane.use (h : Sane s) {c : FdCall} (hfd : ∀ fd ∈ c.descriptor, OfType s.table fd c.Takes)
    {σ : Type} {K : (q : KernelAsk) → σ → q.Answer × σ} {k k' : σ} {out : Outcome}
    (hrun : (c.steps net).run (watch net K) (s, k) = some (out, s', k')) : Sane s' := by
  by_cases hc : c.Duplicates
  · cases c with
    | fcntl fd cmd arg =>
      obtain rfl : cmd = .F_DUPFD := hc
      exact h.dupfd hrun
    | _ => exact hc.elim
  · have ht := h.covers.inUse
    let rel (r : Multiset Entry × (Entry → KernelObject)) (x : Session × σ) : Prop :=
      Handled s.table r x.1
    have hstep : ∀ r x q y x', rel r x → (holding.prod (handling s.table)).may r q →
        watch net K q x = some (y, x') → (holding.prod (handling s.table)).can r q y ∧
          rel ((holding.prod (handling s.table)).next r q y) x' := by
      intro r x q y x' hr hmay hx
      obtain ⟨hcan, hnext⟩ := Handled.serve ht hr hmay hx
      exact ⟨⟨trivial, hcan⟩, hnext⟩
    have hneutral : Neutral (c.steps net) := FdCall.neutral hc
    have hobeys := (hneutral 0).prod (FdCall.handles h.typed hc hfd)
    obtain ⟨⟨g, origin⟩, ⟨hg, -⟩, hend⟩ := hobeys.run rel (t := (s, k)) h.handled hstep hrun
    obtain rfl : g = 0 := hg
    exact Handled.sane h.covers hend

theorem SessionCall.sane (h : Sane s) {c : SessionCall} (hc : c.Fits s) (hrun : c.Runs net s s') :
    Sane s' := by
  cases hrun with
  | open' k fullPath flags => exact h.open k fullPath hc
  | socket k => exact h.socket k
  | accept k fd => exact h.accept k hc
  | pipe k => exact h.pipe k
  | dup fd => exact h.duplicate fd 0
  | dup2 oldfd newfd r => exact h.dup2 oldfd newfd r
  | close fd r => exact h.release fd r
  | use c K k k' out _ hrun => exact h.use hc hrun

theorem sane_init (stdin stdout stderr : ℤ) : Sane (Session.init stdin stdout stderr) where
  covers := covers_initFd stdin stdout stderr
  typed _ _ _ := rfl
  right _ hu := nomatch hu

/-- In a run whose calls fit the types of their descriptors, every routine is applied to handles of
its own family. -/
theorem handles_fit (net : NetErrno → ℤ) (stdin stdout stderr : ℤ) (s : Session)
    (h : ReflTransGen (SessionStep net fun s c ↦ c.Fits s) (Session.init stdin stdout stderr) s) :
    ∀ u ∈ s.uses, u.Right := by
  suffices hsane : Sane s from hsane.right
  induction h with
  | refl => exact sane_init stdin stdout stderr
  | tail _ hstep ih =>
    cases hstep with
    | call c hc hrun => exact SessionCall.sane ih hc hrun

end Sessions

def withSocket : Session :=
  (Session.init 0 1 2).created (.socket 5) (socket 0 (initFd 0 1 2) granting)

theorem withSocket_open : openAt withSocket.table 3 = some (3, 3) := by decide +kernel

theorem withSocket_entry : withSocket.table.pool 3 = ⟨5, .SOCKET, 1⟩ := by decide +kernel

theorem handles_fit_listen :
    ∃ s, SessionCall.Runs 0 withSocket (.use (.socketCall 3 (.listen 1))) s ∧
      s.uses = [⟨.socket 5, 5, .net⟩] ∧ ∀ u ∈ s.uses, u.Right := by
  have hfd : OfType withSocket.table 3 (· = .SOCKET) := by
    intro s i hopen
    obtain ⟨-, rfl⟩ := Prod.mk.inj (Option.some.inj (withSocket_open.symm.trans hopen))
    rw [withSocket_entry]
  have hsocket : SessionStep 0 (fun s c ↦ c.Fits s) (Session.init 0 1 2) withSocket :=
    .call _ (.socket granting) trivial (.socket granting)
  have hlisten : SessionCall.Runs 0 withSocket (.use (.socketCall 3 (.listen 1))) _ :=
    .use _ (fun q k ↦ (q.quiet, k)) () () _ _ rfl
  have hfits : (SessionCall.use (.socketCall 3 (.listen 1))).Fits withSocket := by
    intro fd hmem
    obtain rfl := Option.mem_some.mp hmem
    exact hfd
  exact ⟨_, hlisten, by decide +kernel,
    handles_fit 0 0 1 2 _ (.tail (.single hsocket) (.call _ _ hfits hlisten))⟩

/-- The directory `app0:data` opened as a file. -/
def withDirectory : Session :=
  (Session.init 0 1 2).created (openedObject granting 0)
    (open' 0 (initFd 0 1 2) granting (.ok "app0:data") 0)

/-- The handle of a file is closed as that of a directory. -/
theorem directory_closed_wrong :
    ∃ s, ReflTransGen (SessionStep 0 fun _ _ ↦ True) (Session.init 0 1 2) s ∧
      ⟨.file 4, 4, .fiosDirectory⟩ ∈ s.uses ∧ ¬ Use.Right ⟨.file 4, 4, .fiosDirectory⟩ := by
  refine ⟨_, .tail (.single (.call _ (.open' granting (.ok "app0:data") 0) trivial (.open' _ _ _)))
    (.call _ (.close 3 0) trivial (.close 3 0)), ?_, fun h ↦ nomatch h.2⟩
  change _ ∈ withDirectory.releasing 3 ++ withDirectory.uses
  decide +kernel

end SceLibcPosix.Descriptor
