import SceLibcPosix.Descriptor.Io
import SceLibcPosix.Lib.Programs

namespace SceLibcPosix.Descriptor

open Errno VitaError Programs

def SOL_SOCKET : ℤ := 0xffff

def O_NONBLOCK : ℕ := 0x4000

inductive SockOpt
  | SO_RCVTIMEO | SO_SNDTIMEO | SO_NONBLOCK
  | other (n : ℤ)
deriving DecidableEq, Repr

/-- What `sceNetSetsockopt` gets a pointer to: an `int` of the call, or what the caller points
to. -/
inductive OptVal
  | int (n : ℤ)
  | memory (addr : ℕ)
deriving DecidableEq, Repr

structure EpollEvents where
  epollIn : Bool := false
  epollOut : Bool := false
  epollErr : Bool := false
  epollHup : Bool := false
deriving DecidableEq, Repr

structure EpollEvent where
  events : EpollEvents
  fd : ℤ
deriving DecidableEq, Repr

/-- The routines that are applied to a handle, apart from the transfers. -/
inductive Routine
  | sceFiosFHSeek (off dir : ℤ)
  | sceFiosFHSyncSync
  | sceFiosFHStatSync
  | sceFiosFHTruncateSync (length : ℤ)
  | sceFiosFHGetPath
  | sceFiosDHGetPath
  | sceFiosDHCloseSync
  | sceNetListen (backlog : ℤ)
  | sceNetAccept (addr addrlen : ℕ)
  | sceNetShutdown (how : ℤ)
  | sceNetBind (addr addrlen : ℕ)
  | sceNetConnect (addr addrlen : ℕ)
  | sceNetGetpeername (addr addrlen : ℕ)
  | sceNetGetsockname (addr addrlen : ℕ)
  | sceNetSend (buf len : ℕ) (flags : ℤ)
  | sceNetSendto (buf len : ℕ) (flags : ℤ) (addr addrlen : ℕ)
  | sceNetSendmsg (msg : ℕ) (flags : ℤ)
  | sceNetRecv (buf len : ℕ) (flags : ℤ)
  | sceNetRecvfrom (buf len : ℕ) (flags : ℤ) (addr addrlen : ℕ)
  | sceNetRecvmsg (msg : ℕ) (flags : ℤ)
  | sceNetSetsockopt (level : ℤ) (optname : SockOpt) (optval : OptVal) (optlen : ℕ)
  | sceNetEpollControl (eid : ℤ) (ev : EpollEvent)
deriving DecidableEq, Repr

structure SceDateTime where
  seconds : ℤ
  microsecond : ℤ
deriving DecidableEq, Repr

inductive StatChange
  | mode (mode : ℕ)
  | times (atime mtime : SceDateTime) (setAtime setMtime : Bool)
deriving DecidableEq, Repr

inductive PathCall
  | sceFiosStatSync
  | sceFiosSyncSync
  | sceFiosChangeStatSync (c : StatChange)
  | chmod (mode : ℕ)
  | chdir
  | statvfs
deriving DecidableEq, Repr

/-- `SceFiosDirEntry`, but for the attributes of the file. -/
structure SceFiosDirEntry where
  nameLength : ℕ
  offsetToName : ℕ
  fullPath : List UInt8
deriving DecidableEq, Repr

/-- What the calls ask the kernel and the rest of the library. `i` is the entry that the handle has
been read from, if it has been. A path is its address. -/
inductive KernelAsk
  | close (o : KernelObject)
  | fhTell (fd : ℤ)
  | transfer (i : Option Entry) (q : Request)
  | use (i : Option Entry) (handle : ℤ) (q : Routine)
  | dhRead (i : Entry) (dh : ℤ)
  | getsockopt (i : Entry) (id level : ℤ) (optname : SockOpt)
  | path (path : ℤ) (c : PathCall)
  | dhOpen (path : ℤ)
  | malloc (size : ℕ)
  | convertTime (sec : ℤ)
  | currentClock
  | delayThread (usec : ℤ)
  | epollCreate (name : String)
  | epollWait (eid : ℤ) (maxEvents : ℕ) (timeout : ℤ)
  | epollDestroy (eid : ℤ)
deriving DecidableEq, Repr

/-- The routines that store something besides their result answer with both. A wait that fails
answers `.error n` for the code `-(n + 1)`. -/
abbrev KernelAsk.Answer : KernelAsk → Type
  | .transfer _ _ => Transfer
  | .dhRead _ _ => ℤ × SceFiosDirEntry
  | .getsockopt _ _ _ _ | .dhOpen _ => ℤ × ℤ
  | .malloc _ => Bool
  | .convertTime _ | .currentClock => ℤ × SceDateTime
  | .epollWait _ _ _ => Except ℕ (List EpollEvent)
  | _ => ℤ

/-- What a call that takes a descriptor asks for, one step after the other. `load` reads `sce_uid`
and `type` of an entry. -/
inductive Ask
  | grab (fd : ℤ)
  | drop (i : Entry)
  | load (i : Entry)
  | storeUid (i : Entry) (uid : ℤ)
  | duplicate (fd minfd : ℤ)
  /-- A call of the library gets the handle of the entry for a descriptor. -/
  | pass (i : Entry)
  /-- An access through a null pointer or past the end of an array. -/
  | fault
  | kernel (q : KernelAsk)
deriving DecidableEq, Repr

abbrev Ask.Answer : Ask → Type
  | .grab _ => Option Entry
  | .drop _ => ℤ
  | .load _ => DescriptorTranslation
  | .storeUid _ _ | .pass _ => Unit
  | .duplicate _ _ => Except (Option ℤ) Slot
  | .fault => Empty
  | .kernel q => q.Answer

abbrev Call (α : Type) := Program Ask Ask.Answer α

/-- What a call returns and the error number that it sets, if it sets one. -/
structure Outcome where
  ret : ℤ
  errno : Option ℤ := none
deriving DecidableEq, Repr

def fail (errno : ℤ) : Outcome := ⟨-1, some errno⟩

section

variable {α : Type}

def ask (q : Ask) : Call q.Answer := .query q

def grab (fd : ℤ) : Call (Option Entry) := ask (.grab fd)

def drop (i : Entry) : Call ℤ := ask (.drop i)

def load (i : Entry) : Call DescriptorTranslation := ask (.load i)

def fault : Call α := .ask Ask.fault Empty.elim

def kernel (q : KernelAsk) : Call q.Answer := ask (.kernel q)

def use (i : Entry) (d : DescriptorTranslation) (q : Routine) : Call ℤ :=
  kernel (.use (some i) d.sceUid q)

def onPath (i : Entry) (d : DescriptorTranslation) (getPath : Routine) (c : PathCall) : Call ℤ := do
  let path ← use i d getPath
  kernel (.path path c)

def withFd (fd : ℤ) (absent : Call α) (body : Entry → DescriptorTranslation → Call α) :
    Call α := do
  match ← grab fd with
  | none => absent
  | some i =>
    let d ← load i
    body i d

end

inductive FcntlCmd
  | F_DUPFD | F_GETFD | F_GETFL | F_SETFL
  | other (n : ℤ)
deriving DecidableEq, Repr

def fcntl (net : NetErrno → ℤ) (fd : ℤ) (cmd : FcntlCmd) (arg : ℕ) : Call Outcome :=
  if cmd = .F_DUPFD then
    if MAX_OPEN_FILES ≤ arg then return fail EINVAL
    else do
      match ← ask (.duplicate fd arg) with
      | .error _ => return fail EBADF
      | .ok dupfd => return ⟨dupfd.val, some 0⟩
  else
    withFd fd (return fail EBADF) fun i d ↦
      if cmd = .F_GETFD then do
        let _ ← drop i
        return ⟨0, none⟩
      else if d.type = .SOCKET ∧ cmd = .F_GETFL then do
        let (res, optval) ← kernel (.getsockopt i d.sceUid SOL_SOCKET .SO_NONBLOCK)
        let _ ← drop i
        return if res < 0 then fail (scenetErrnoToErrno net res)
          else ⟨if optval ≠ 0 then O_NONBLOCK else 0, none⟩
      else if d.type = .SOCKET ∧ cmd = .F_SETFL then do
        let optval := if arg &&& O_NONBLOCK ≠ 0 then 1 else 0
        let optres ← use i d (.sceNetSetsockopt SOL_SOCKET .SO_NONBLOCK (.int optval) 4)
        let _ ← drop i
        return if optres < 0 then fail (scenetErrnoToErrno net optres) else ⟨0, none⟩
      else do
        let _ ← drop i
        return fail ENOTSUP

def lseek (net : NetErrno → ℤ) (fd off dir : ℤ) : Call Outcome := do
  let ret : Option ℤ ← withFd fd
    (do
      let pos ← kernel (.fhTell fd)
      if pos < 0 then return none
      else return some (← kernel (.use none fd (.sceFiosFHSeek off dir))))
    fun i d ↦ do
      let ret ← (match d.type with
        | .FILE => use i d (.sceFiosFHSeek off dir)
        | .DIRECTORY => pure (makeSceErrno EBADF)
        | .TTY | .SOCKET | .PIPE => pure (makeSceErrno ESPIPE) : Call ℤ)
      let _ ← drop i
      return some ret
  match ret with
  | none => return fail EBADF
  | some ret =>
    -- the offset is kept in an `int`
    let ret := ret.bmod (2 ^ 32)
    return if ret < 0 then fail (sceErrnoToErrno net ret .FIOS) else ⟨ret, none⟩

/-- `fstat`, but for the copy into the caller's buffer. -/
def fstat (net : NetErrno → ℤ) (fd : ℤ) : Call Outcome := do
  let ret : Option ℤ ← withFd fd
    (do
      let pos ← kernel (.fhTell fd)
      if pos < 0 then return none
      else return some (← kernel (.use none fd .sceFiosFHStatSync)))
    fun i d ↦ do
      let ret ← (match d.type with
        | .DIRECTORY => onPath i d .sceFiosDHGetPath .sceFiosStatSync
        | .FILE => use i d .sceFiosFHStatSync
        | .TTY | .SOCKET | .PIPE => pure (makeSceErrno EBADF) : Call ℤ)
      let _ ← drop i
      return some ret
  match ret with
  | none => return fail EBADF
  | some ret => return if ret < 0 then fail (sceErrnoToErrno net ret .FIOS) else ⟨0, some 0⟩

def fsync (net : NetErrno → ℤ) (fd : ℤ) : Call Outcome :=
  withFd fd (return fail EBADF) fun i d ↦ do
    let ret ← (match d.type with
      | .DIRECTORY => onPath i d .sceFiosDHGetPath .sceFiosSyncSync
      | .FILE => use i d .sceFiosFHSyncSync
      | .TTY | .SOCKET | .PIPE => pure (makeSceErrno EINVAL) : Call ℤ)
    let _ ← drop i
    return if ret < 0 then fail (sceErrnoToErrno net ret .GENERIC) else ⟨0, none⟩

def ftruncate (net : NetErrno → ℤ) (fd length : ℤ) : Call Outcome :=
  withFd fd (return fail EBADF) fun i d ↦ do
    let ret ← (match d.type with
      | .FILE => use i d (.sceFiosFHTruncateSync length)
      | .TTY | .SOCKET | .DIRECTORY | .PIPE => pure (makeSceErrno EBADF) : Call ℤ)
    let _ ← drop i
    return if ret < 0 then fail (sceErrnoToErrno net ret .FIOS) else ⟨0, some 0⟩

/-- `fstatvfs`, but for what it stores in the caller's buffer. -/
def fstatvfs (fd : ℤ) : Call Outcome :=
  withFd fd (return fail EBADF) fun i d ↦ do
    match d.type with
    | .TTY | .SOCKET | .PIPE =>
      let _ ← drop i
      return ⟨0, none⟩
    -- the path of a file is asked for as that of a directory
    | .FILE | .DIRECTORY =>
      let ret ← onPath i d .sceFiosDHGetPath .statvfs
      let _ ← drop i
      return ⟨ret, none⟩

def fchdir (fd : ℤ) : Call Outcome :=
  withFd fd (return fail EBADF) fun i d ↦ do
    match d.type with
    | .TTY | .FILE | .SOCKET | .PIPE =>
      let _ ← drop i
      return fail ENOTDIR
    | .DIRECTORY =>
      let ret ← onPath i d .sceFiosDHGetPath .chdir
      let _ ← drop i
      return ⟨ret, none⟩

def fchmod (net : NetErrno → ℤ) (fd : ℤ) (mode : ℕ) : Call Outcome :=
  withFd fd (return fail EBADF) fun i d ↦ do
    let ret ← (match d.type with
      | .TTY | .FILE => onPath i d .sceFiosFHGetPath (.chmod mode)
      | .DIRECTORY => onPath i d .sceFiosDHGetPath (.chmod mode)
      | .SOCKET | .PIPE => pure (makeSceErrno EBADF) : Call ℤ)
    if ret < 0 then
      let _ ← drop i
      return fail (sceErrnoToErrno net ret .FIOS)
    else
      let ret ← (match d.type with
        | .TTY | .FILE => onPath i d .sceFiosFHGetPath (.sceFiosChangeStatSync (.mode mode))
        | .DIRECTORY => onPath i d .sceFiosDHGetPath (.sceFiosChangeStatSync (.mode mode))
        | .SOCKET | .PIPE => pure ret : Call ℤ)
      let _ ← drop i
      return if ret < 0 then fail (sceErrnoToErrno net ret .FIOS) else ⟨0, none⟩

inductive Nsec
  | UTIME_NOW | UTIME_OMIT
  | value (n : ℤ)
deriving DecidableEq, Repr

structure Timespec where
  sec : ℤ
  nsec : Nsec
deriving DecidableEq, Repr

/-- One turn of the loop of `utimensat`. -/
def toDateTime (t : Timespec) : Call (ℤ × SceDateTime) :=
  match t.nsec with
  | .value n => do
    let (ret, dt) ← kernel (.convertTime t.sec)
    return (ret, { dt with microsecond := n.tdiv 1000 })
  | .UTIME_NOW | .UTIME_OMIT => kernel .currentClock

/-- The access and the modification time that `utimensat` stores, or the code that it fails with. -/
def newTimes : Option (Timespec × Timespec) → Call (Except ℤ (SceDateTime × SceDateTime))
  | some (atime, mtime) => do
    let (ret, dt₀) ← toDateTime atime
    if ret < 0 then return .error ret
    else
      let (ret, dt₁) ← toDateTime mtime
      return if ret < 0 then .error ret else .ok (dt₀, dt₁)
  | none => do
    let (ret, dt) ← kernel .currentClock
    return if ret < 0 then .error ret else .ok (dt, dt)

/-- `utimensat`. It looks neither at its path nor at its flags. -/
def utimensat (net : NetErrno → ℤ) (fd : ℤ) (times : Option (Timespec × Timespec)) :
    Call Outcome :=
  withFd fd (return fail EBADF) fun i d ↦ do
    let ret ← (match d.type with
      | .DIRECTORY => onPath i d .sceFiosDHGetPath .sceFiosStatSync
      | .TTY | .FILE => use i d .sceFiosFHStatSync
      | .SOCKET | .PIPE => pure (makeSceErrno EBADF) : Call ℤ)
    if ret < 0 then
      let _ ← drop i
      return fail (sceErrnoToErrno net ret .FIOS)
    else
      match ← newTimes times with
      | .error ret =>
        let _ ← drop i
        return fail (sceErrnoToErrno net ret .GENERIC)
      | .ok (atime, mtime) =>
        let set (t : Timespec × Timespec → Timespec) : Bool :=
          times.all fun p ↦ (t p).nsec ≠ .UTIME_OMIT
        let change := .sceFiosChangeStatSync (.times atime mtime (set Prod.fst) (set Prod.snd))
        let getPath := if d.type = .DIRECTORY then .sceFiosDHGetPath else .sceFiosFHGetPath
        let ret ← onPath i d getPath change
        let _ ← drop i
        return if ret < 0 then fail (sceErrnoToErrno net ret .FIOS) else ⟨0, none⟩

/-- `struct dirent`. `d_name` is the whole array, with what stands behind the terminator. -/
structure Dirent where
  dIno : ℤ
  dName : List UInt8
deriving DecidableEq, Repr

structure Dir where
  fd : ℤ
  dir : Dirent
  index : ℤ
deriving DecidableEq, Repr

/-- `strncpy`: what stands in the array `dst` after it. -/
def strncpy (dst src : List UInt8) (n : ℕ) : List UInt8 :=
  let s := (src.take n).takeWhile (· ≠ 0)
  s ++ List.replicate (n - s.length) 0 ++ dst.drop n

def Dir.store (dir : Dir) (tempdir : SceFiosDirEntry) : Dir :=
  { dir with dir := ⟨0, strncpy dir.dir.dName (tempdir.fullPath.drop tempdir.offsetToName)
    tempdir.nameLength⟩ }

/-- `readdir`: 0 for a null pointer, 1 for the entry of the stream, and the stream. -/
def readdir (net : NetErrno → ℤ) (dirp : Option Dir) : Call (Outcome × Option Dir) :=
  match dirp with
  | none => return (⟨0, some EBADF⟩, none)
  | some dir =>
    withFd dir.fd (return (⟨0, some EBADF⟩, some dir)) fun i d ↦ do
      let (res, tempdir) ← kernel (.dhRead i d.sceUid)
      let _ ← drop i
      if res < 0 then return (⟨0, some (sceErrnoToErrno net res .FIOS)⟩, some dir)
      -- the name is copied at the end of the listing too
      else if dir.dir.dName.length < tempdir.nameLength then fault
      else if res = 0 then return (⟨0, none⟩, some (dir.store tempdir))
      else return (⟨1, none⟩, some { dir.store tempdir with index := dir.index + 1 })

/-- `rewinddir`: the error number that it sets, and the stream. -/
def rewinddir (net : NetErrno → ℤ) (dirp : Option Dir) : Call (ℤ × Option Dir) :=
  match dirp with
  | none => return (EBADF, none)
  | some dir =>
    withFd dir.fd (return (EBADF, some dir)) fun i d ↦ do
      let path ← use i d .sceFiosDHGetPath
      let (ret, handle) ← kernel (.dhOpen path)
      let dirfd := if ret < 0 then ret else handle
      if dirfd < 0 then
        let _ ← drop i
        return (sceErrnoToErrno net dirfd .FIOS, some dir)
      else
        let _ ← use i d .sceFiosDHCloseSync
        ask (.storeUid i dirfd)
        let _ ← drop i
        return (0, some { dir with index := 0 })

def socketCall (net : NetErrno → ℤ) (s : ℤ) (q : Routine) (value : ℤ → ℤ) : Call Outcome :=
  withFd s (return fail EBADF) fun i d ↦ do
    let res ← use i d q
    let _ ← drop i
    return if res < 0 then fail (scenetErrnoToErrno net res) else ⟨value res, none⟩

section

variable (net : NetErrno → ℤ) (s : ℤ) (buf len msg addr addrlen : ℕ) (flags : ℤ)

def listen (backlog : ℤ) : Call Outcome :=
  socketCall net s (.sceNetListen (if backlog < 1 then 1 else backlog)) fun _ ↦ 0

def shutdown (how : ℤ) : Call Outcome := socketCall net s (.sceNetShutdown how) fun _ ↦ 0

def bind' : Call Outcome := socketCall net s (.sceNetBind addr addrlen) fun _ ↦ 0

def connect : Call Outcome := socketCall net s (.sceNetConnect addr addrlen) fun _ ↦ 0

def getpeername : Call Outcome := socketCall net s (.sceNetGetpeername addr addrlen) fun _ ↦ 0

def getsockname : Call Outcome := socketCall net s (.sceNetGetsockname addr addrlen) fun _ ↦ 0

def send : Call Outcome := socketCall net s (.sceNetSend buf len flags) id

def sendto : Call Outcome := socketCall net s (.sceNetSendto buf len flags addr addrlen) id

def sendmsg : Call Outcome := socketCall net s (.sceNetSendmsg msg flags) id

def recv : Call Outcome := socketCall net s (.sceNetRecv buf len flags) id

def recvfrom : Call Outcome := socketCall net s (.sceNetRecvfrom buf len flags addr addrlen) id

def recvmsg : Call Outcome := socketCall net s (.sceNetRecvmsg msg flags) id

end

def SockOpt.isTimeout (o : SockOpt) : Bool := o = .SO_RCVTIMEO ∨ o = .SO_SNDTIMEO

inductive OptResult
  | timeval (sec usec : ℤ)
  | value (n : ℤ)
deriving DecidableEq, Repr

/-- `getsockopt`. `sizeofTimeval` is `sizeof(struct timeval)`. The time is stored although the
routine may have failed. -/
def getsockopt (net : NetErrno → ℤ) (sizeofTimeval : ℕ) (s level : ℤ) (optname : SockOpt)
    (optlen : ℕ) : Call (Outcome × Option OptResult) :=
  withFd s (return (fail EBADF, none)) fun i d ↦ do
    if optname.isTimeout ∧ optlen < sizeofTimeval then
      let _ ← drop i
      return (fail EINVAL, none)
    else
      let (res, wait) ← kernel (.getsockopt i d.sceUid level optname)
      let _ ← drop i
      let result := if optname.isTimeout then .timeval (wait.tdiv 1000000) (wait.tmod 1000000)
        else .value wait
      return (if res < 0 then fail (scenetErrnoToErrno net res) else ⟨0, none⟩, some result)

/-- `setsockopt`; `timeout` is the time at the address `optval`. -/
def setsockopt (net : NetErrno → ℤ) (sizeofTimeval : ℕ) (s level : ℤ) (optname : SockOpt)
    (optval : ℕ) (timeout : ℤ × ℤ) (optlen : ℕ) : Call Outcome :=
  withFd s (return fail EBADF) fun i d ↦ do
    if optname.isTimeout ∧ optlen < sizeofTimeval then
      let _ ← drop i
      return fail EINVAL
    else
      let wait := (timeout.1 * 1000000 + timeout.2).bmod (2 ^ 32)
      let res ← use i d (if optname.isTimeout then .sceNetSetsockopt level optname (.int wait) 4
        else .sceNetSetsockopt level optname (.memory optval) optlen)
      let _ ← drop i
      return if res < 0 then fail (scenetErrnoToErrno net res) else ⟨0, none⟩

def ending (net : NetErrno → ℤ) (type : ErrorType) (ret : ℤ) : Outcome :=
  if ret < 0 then ⟨-1, if ret ≠ -1 then some (sceErrnoToErrno net ret type) else none⟩
  else ⟨ret, some 0⟩

/-- A plain transfer, step by step: `read`, `write`, `pread` and `pwrite`. -/
def Plain.steps (c : Plain) (net : NetErrno → ℤ) (fd : ℤ) : Call (Outcome × List UInt8) :=
  withFd fd
    (match c.handle with
    | none => return (fail EBADF, [])
    | some q => do
      let pos ← kernel (.fhTell fd)
      if pos < 0 then return (fail EBADF, [])
      else
        let x ← kernel (.transfer none (q fd))
        return (ending net .FIOS x.ret, x.data))
    fun i d ↦ do
      let (type, x) ← (match c.entry d with
        | none => pure (.GENERIC, .refused EBADF)
        | some (type, q) => do
          let x ← kernel (.transfer (some i) q)
          pure (type, x) : Call (ErrorType × Transfer))
      let _ ← drop i
      return (ending net type x.ret, x.data)

def VectorCall.helperSteps (v : VectorCall) (net : NetErrno → ℤ) (mem : ℕ → UInt8) (fd : ℤ)
    (iov : List (ℕ × ℕ)) : Call (Outcome × (ℕ → UInt8)) :=
  match totalFrom 0 iov with
  | none => return (⟨-1, none⟩, mem)
  | some bytes => do
    let alloc ← kernel (.malloc bytes)
    if !alloc then return (⟨-1, none⟩, mem)
    else
      let (out, data) ← (v.plain bytes).steps net fd
      return if out.ret < 0 then (⟨-1, out.errno⟩, mem) else (out, v.copyOut mem data)

def VectorCall.steps (v : VectorCall) (net : NetErrno → ℤ) (mem : ℕ → UInt8) (fd : ℤ)
    (iov : List (ℕ × ℕ)) : Call (Outcome × (ℕ → UInt8)) :=
  withFd fd
    (match (v.plain 0).handle with
    | none => return (fail EBADF, mem)
    | some _ => do
      let pos ← kernel (.fhTell fd)
      if pos < 0 then return (fail EBADF, mem)
      else
        let x ← kernel (.transfer none (v.fios fd))
        return (ending net .FIOS x.ret, v.lay mem x.data))
    fun i d ↦ do
      let (type, out, mem) ← (match d.type with
        | .TTY | .PIPE | .SOCKET => do
          ask (.pass i)
          let (out, mem) ← v.helperSteps net mem d.sceUid iov
          pure (.GENERIC, out, mem)
        | .FILE => do
          let x ← kernel (.transfer (some i) (v.fios d.sceUid))
          pure (.FIOS, ⟨x.ret, none⟩, v.lay mem x.data)
        | .DIRECTORY => pure (.GENERIC, ⟨makeSceErrno EBADF, none⟩, mem) :
          Call (ErrorType × Outcome × (ℕ → UInt8)))
      let _ ← drop i
      let last := ending net type out.ret
      return (⟨last.ret, last.errno.or out.errno⟩, mem)

/-- The answers to a call during which nothing else runs, from the table and from a kernel `K` with
a state of its own. -/
def serve {σ : Type} (net : NetErrno → ℤ) (K : (q : KernelAsk) → σ → q.Answer × σ) :
    (q : Ask) → Table × σ → Option (q.Answer × Table × σ)
  | .grab fd, (t, k) => some ((fdGrab t fd).1, (fdGrab t fd).2, k)
  | .drop i, (t, k) =>
    let (r, k) := if (t.pool i).refCount = 1 then K (.close (t.pool i).object) k else (0, k)
    some ((fdDrop net t i r).1, (fdDrop net t i r).2, k)
  | .load i, (t, k) => some (t.pool i, t, k)
  | .storeUid i uid, (t, k) => some ((), t.setEntry i { t.pool i with sceUid := uid }, k)
  | .duplicate fd minfd, (t, k) =>
    some ((duplicateDescriptor t fd minfd).1, (duplicateDescriptor t fd minfd).2, k)
  | .pass _, (t, k) => some ((), t, k)
  | .fault, _ => none
  | .kernel q, (t, k) => some ((K q k).1, t, (K q k).2)

def KernelAsk.quiet : (q : KernelAsk) → q.Answer
  | .transfer _ _ => .moved []
  | .dhRead _ _ => (0, ⟨0, 0, []⟩)
  | .getsockopt _ _ _ _ | .dhOpen _ => (0, 0)
  | .malloc _ => true
  | .convertTime _ | .currentClock => (0, ⟨0, 0⟩)
  | .epollWait _ _ _ => .ok []
  | .close _ | .fhTell _ | .use _ _ _ | .path _ _ | .delayThread _ | .epollCreate _
  | .epollDestroy _ => 0

end SceLibcPosix.Descriptor
