import SceLibcPosix.Lib.Heap
import SceLibcPosix.Lib.Programs
import SceLibcPosix.Path.Chdir

namespace SceLibcPosix.PathCalls

open Errno VitaError Programs Heaps
open SceLibcPosix.Path (PATH_MAX getDrive initCwd Tidy Suitable)

/-- `SceFiosStat`, as far as the calls read it. -/
structure SceFiosStat where
  size : ℤ := 0
  atime : ℤ := 0
  mtime : ℤ := 0
  ctime : ℤ := 0
  mode : ℤ := 0
deriving DecidableEq, Repr

/-- `struct stat`, as far as it is filled in. -/
structure Stat where
  size : ℤ
  mode : ℕ
  atime : ℤ
  mtime : ℤ
  ctime : ℤ
deriving DecidableEq, Repr

structure SceDateTime where
  seconds : ℤ
  microsecond : ℤ
deriving DecidableEq, Repr

structure Timeval where
  sec : ℤ
  usec : ℤ
deriving DecidableEq, Repr

structure SceIoDevInfo where
  maxSize : ℕ
  freeSize : ℕ
  clusterSize : ℕ
deriving DecidableEq, Repr

structure Statvfs where
  bsize : ℕ
  frsize : ℕ
  blocks : ℕ
  bfree : ℕ
  bavail : ℕ
  files : ℕ := 2 ^ 32 - 1
  ffree : ℕ := 2 ^ 32 - 1
  favail : ℕ := 2 ^ 32 - 1
  fsid : ℕ := 0
  flag : ℕ
  namemax : ℕ := 256
deriving DecidableEq, Repr

/-- What the headers and the libraries of the system define: the error numbers of the network, the
tests of `SCE_S_ISREG` and `SCE_S_ISDIR`, `ST_NOSUID`, and the time for a date of FIOS and the other
way round. -/
structure Sdk where
  net : NetErrno → ℤ
  isReg : ℤ → Bool
  isDir : ℤ → Bool
  nosuid : ℕ
  time : ℤ → ℤ
  date : SceDateTime → ℤ

def S_IFDIR : ℕ := 0o040000

def S_IFREG : ℕ := 0o100000

def S_IWRITE : ℕ := 0o200

def W_OK : ℕ := 2

/-- The requests to FIOS that name a file, with what goes with them, and the other requests. -/
inductive Request
  | sceFiosStatSync (path : List Char)
  | sceFiosChangeStatSync (path : List Char) (st : SceFiosStat) (mode atime mtime : Bool)
  | sceFiosDirectoryCreateSync (path : List Char)
  | sceFiosDirectoryDeleteSync (path : List Char)
  | sceFiosDeleteSync (path : List Char)
  | sceLibcFopen (path mode : List Char)
  | sceFiosFileTruncateSync (path : List Char) (length : ℤ)
  | sceFiosDevctlSync (drive : List Char)
  | sceRtcConvertTime_tToDateTime (sec : ℤ)
  | sceRtcGetCurrentClockUtc
deriving DecidableEq, Repr

abbrev Request.Answer : Request → Type
  | .sceFiosStatSync _ => ℤ × SceFiosStat
  | .sceFiosDevctlSync _ => ℤ × SceIoDevInfo
  | .sceRtcConvertTime_tToDateTime _ | .sceRtcGetCurrentClockUtc => ℤ × SceDateTime
  | _ => ℤ

/-- What a call does, one step after the other. After `fault` the language defines nothing. -/
inductive Ask
  | calloc
  | free (p : Pointer)
  | loadCwd
  | storeCwd (cwd : List Char)
  | request (q : Request)
  | fault
deriving DecidableEq, Repr

abbrev Ask.Answer : Ask → Type
  | .calloc => Option Pointer
  | .loadCwd => List Char
  | .request q => q.Answer
  | .fault => Empty
  | _ => Unit

abbrev Call := Program Ask Ask.Answer

def request (q : Request) : Call q.Answer := Program.query (A := Ask.Answer) (.request q)

def free (p : Pointer) : Call Unit := Program.query (A := Ask.Answer) (.free p)

def fault {α : Type} : Call α := Program.ask (A := Ask.Answer) .fault nofun

/-- What a call returns, if it returns something, and the value it gives to `errno`, if any. -/
structure Outcome where
  ret : Option ℤ
  errno : Option ℤ
deriving DecidableEq, Repr

def fail (errno : ℤ) : Outcome := ⟨some (-1), some errno⟩

/-- `__realpath`: the block of the result and the string in it, or the error number. -/
def realpath : Option (List Char) → Call (Except ℤ (Pointer × List Char))
  | none => return .error EINVAL
  | some path =>
    if path.length = 0 then return .error ENOENT
    else
      Program.ask (A := Ask.Answer) .calloc fun
        | none => return .error ENOMEM
        | some p =>
          Program.ask (A := Ask.Answer) .loadCwd fun cwd ↦
            Program.ask (A := Ask.Answer) (.storeCwd (Path.realpath true cwd (some path)).2) fun _ ↦
              match (Path.realpath true cwd (some path)).1 with
              | .undefined => fault
              | .null errno => do
                free p
                return .error errno
              | .ok fullPath => return .ok (p, fullPath)

def withRealpath (path : Option (List Char)) (body : Pointer → List Char → Call Outcome) :
    Call Outcome := do
  match ← realpath path with
  | .error errno => return fail errno
  | .ok (p, fullPath) => body p fullPath

def onPath (q : List Char → Request) (ret : (path : List Char) → (q path).Answer → ℤ)
    (errno : Option ℤ) (path : Option (List Char)) : Call Outcome :=
  withRealpath path fun p fullPath ↦ do
    let x ← request (q fullPath)
    free p
    return if ret fullPath x < 0 then fail (scefios2ErrnoToErrno (ret fullPath x))
      else ⟨some 0, errno⟩

def mkdir : Option (List Char) → Call Outcome :=
  onPath .sceFiosDirectoryCreateSync (fun _ x ↦ x) (some 0)

def rmdir : Option (List Char) → Call Outcome :=
  onPath .sceFiosDirectoryDeleteSync (fun _ x ↦ x) (some 0)

def unlink : Option (List Char) → Call Outcome :=
  onPath .sceFiosDeleteSync (fun _ x ↦ x) (some 0)

/-- `chown`, which only looks whether the file is there. -/
def chown : Option (List Char) → Call Outcome :=
  onPath .sceFiosStatSync (fun _ x ↦ x.1) none

def scestatToStat (sdk : Sdk) (st : SceFiosStat) : Stat where
  size := st.size
  mode := (if sdk.isReg st.mode then S_IFREG else 0) ||| (if sdk.isDir st.mode then S_IFDIR else 0)
  atime := sdk.time st.atime
  mtime := sdk.time st.mtime
  ctime := sdk.time st.ctime

def stat (sdk : Sdk) (path : Option (List Char)) : Call (Outcome × Option Stat) := do
  match ← realpath path with
  | .error errno => return (fail errno, none)
  | .ok (p, fullPath) =>
    let (ret, st) ← request (.sceFiosStatSync fullPath)
    free p
    return if ret < 0 then (fail (scefios2ErrnoToErrno ret), none)
      else (⟨some 0, some 0⟩, some (scestatToStat sdk st))

def lstat (sdk : Sdk) (path : Option (List Char)) : Call (Outcome × Option Stat) := stat sdk path

def access (sdk : Sdk) (path : Option (List Char)) (flags : ℕ) : Call Outcome := do
  match ← stat sdk path with
  | (out, none) => return ⟨some (-1), out.errno⟩
  | (out, some st) =>
    return if st.mode &&& S_IFDIR ≠ 0 then ⟨some 0, out.errno⟩
      else if flags &&& W_OK ≠ 0 then
        if st.mode &&& S_IWRITE ≠ 0 then ⟨some 0, out.errno⟩ else ⟨some (-1), out.errno⟩
      else ⟨some 0, out.errno⟩

def chmod (path : Option (List Char)) (mode : ℤ) : Call Outcome :=
  withRealpath path fun p fullPath ↦ do
    let (ret, st) ← request (.sceFiosStatSync fullPath)
    if ret < 0 then do
      free p
      return fail (scefios2ErrnoToErrno ret)
    else do
      let ret ← request
        (.sceFiosChangeStatSync fullPath { st with mode := mode } true false false)
      free p
      return if ret < 0 then fail (scefios2ErrnoToErrno ret) else ⟨some 0, none⟩

/-- The times that `utimes` asks for; both are made of the first one. -/
def utimesTimes (sdk : Sdk) : Option (Timeval × Timeval) → Call (Option (ℤ × ℤ))
  | some (atime, mtime) => do
    let (ret, dt₀) ← request (.sceRtcConvertTime_tToDateTime atime.sec)
    if ret < 0 then return none
    else do
      let dt₀ := { dt₀ with microsecond := atime.usec }
      let (ret, _) ← request (.sceRtcConvertTime_tToDateTime mtime.sec)
      return if ret < 0 then none else some (sdk.date dt₀, sdk.date dt₀)
  | none => do
    let (ret, dt) ← request .sceRtcGetCurrentClockUtc
    return if ret < 0 then none else some (sdk.date dt, sdk.date dt)

/-- `utimes`; `ret` is what its variable of this name contains, which is never set. -/
def utimes (sdk : Sdk) (ret : ℤ) (path : Option (List Char)) (times : Option (Timeval × Timeval)) :
    Call Outcome :=
  withRealpath path fun p fullPath ↦ do
    let (err, st) ← request (.sceFiosStatSync fullPath)
    if err < 0 then do
      free p
      return fail (scefios2ErrnoToErrno ret)
    else
      match ← utimesTimes sdk times with
      | none => do
        free p
        return fail (scefios2ErrnoToErrno ret)
      | some (atime, mtime) => do
        let err ← request (.sceFiosChangeStatSync fullPath
          { st with atime := atime, mtime := mtime } false true true)
        free p
        return if err < 0 then fail (scefios2ErrnoToErrno ret) else ⟨some 0, none⟩

def utime (sdk : Sdk) (ret : ℤ) (path : Option (List Char)) (buf : Option (ℤ × ℤ)) :
    Call Outcome :=
  utimes sdk ret path (buf.map fun b ↦ (⟨b.1, 0⟩, ⟨b.2, 0⟩))

/-- `fopen`: the stream, or 0. -/
def fopen (path : Option (List Char)) (mode : List Char) : Call Outcome := do
  match ← realpath path with
  | .error errno => return ⟨some 0, some errno⟩
  | .ok (p, fullPath) =>
    let f ← request (.sceLibcFopen fullPath mode)
    free p
    return ⟨some (if f ≠ 0 then f else 0), none⟩

/-- `truncate`, which does not look up its path. -/
def truncate (sdk : Sdk) (path : List Char) (length : ℤ) : Call Outcome := do
  let ret ← request (.sceFiosFileTruncateSync path length)
  return if ret < 0 then fail (sceErrnoToErrno sdk.net ret .GENERIC) else ⟨some 0, some 0⟩

/-- `statvfs`, with what it stores. Where it succeeds it ends without a `return`, and in no case
does it free the path. -/
def statvfs (sdk : Sdk) (path : Option (List Char)) (buf : Bool) :
    Call (Outcome × Option Statvfs) := do
  if buf = false ∨ path = none then return (fail EFAULT, none)
  else
    match ← realpath path with
    | .error errno => return (fail errno, none)
    | .ok (_, fullPath) =>
      let d := getDrive fullPath
      let d := if d > 15 then 15 else d
      let (ret, info) ← request (.sceFiosDevctlSync (fullPath.take d))
      if ret < 0 then return (fail Errno.EIO, none)
      else if info.clusterSize = 0 then fault
      else
        return (⟨none, none⟩, some
          { bsize := info.clusterSize
            frsize := info.clusterSize
            blocks := info.maxSize / info.clusterSize
            bfree := info.freeSize / info.clusterSize
            bavail := info.freeSize / info.clusterSize
            flag := sdk.nosuid })

def chdir (sdk : Sdk) (path : Option (List Char)) : Call Outcome :=
  match path with
  | none => return fail EFAULT
  | some path =>
    withRealpath (some path) fun p fullPath ↦ do
      let (ret, st) ← request (.sceFiosStatSync fullPath)
      -- `__is_dir`
      let ret := if ret < 0 then ret else if !sdk.isDir st.mode then makeSceErrno ENOTDIR else 0
      if ret < 0 then do
        free p
        return fail (scefios2ErrnoToErrno ret)
      else
        Program.ask (A := Ask.Answer) (.storeCwd fullPath) fun _ ↦ do
          free p
          return ⟨some 0, none⟩

/-- `getcwd`: the buffer that it returns, with the string in it, and the value of `errno`. -/
def getcwd (buf : Option Pointer) (size : ℕ) : Call (Option (Pointer × List Char) × Option ℤ) :=
  Program.ask (A := Ask.Answer) .loadCwd fun cwd ↦
    let cwd := initCwd cwd
    Program.ask (A := Ask.Answer) (.storeCwd cwd) fun _ ↦
      if buf ≠ none ∧ size = 0 then return (none, some EINVAL)
      else if buf ≠ none ∧ size ≤ cwd.length then return (none, some ERANGE)
      else
        match buf with
        | some p => return (some (p, cwd), none)
        | none =>
          Program.ask (A := Ask.Answer) .calloc fun
            | none => return (none, some ENOMEM)
            | some p => return (some (p, cwd), none)

/-- `realpath` of the C library: the string it returns and where it stands, and the value of
`errno`. -/
def realpath' (sdk : Sdk) (path : Option (List Char)) (resolvedPath : Option Pointer) :
    Call (Option (Pointer × List Char) × Option ℤ) := do
  match ← realpath path with
  | .error errno => return (none, some errno)
  | .ok (p, fullPath) =>
    let (ret, _) ← request (.sceFiosStatSync fullPath)
    if ret < 0 then do
      free p
      return (none, some (sceErrnoToErrno sdk.net ret .GENERIC))
    else
      match resolvedPath with
      | none => return (some (p, fullPath), none)
      | some buf => do
        free p
        return (some (buf, fullPath), none)

inductive PathCall
  | stat (path : Option (List Char))
  | lstat (path : Option (List Char))
  | access (path : Option (List Char)) (flags : ℕ)
  | mkdir (path : Option (List Char))
  | rmdir (path : Option (List Char))
  | unlink (path : Option (List Char))
  | chown (path : Option (List Char))
  | chmod (path : Option (List Char)) (mode : ℤ)
  | utimes (ret : ℤ) (path : Option (List Char)) (times : Option (Timeval × Timeval))
  | utime (ret : ℤ) (path : Option (List Char)) (buf : Option (ℤ × ℤ))
  | fopen (path : Option (List Char)) (mode : List Char)
  | truncate (path : List Char) (length : ℤ)
  | statvfs (path : Option (List Char)) (buf : Bool)
  | chdir (path : Option (List Char))
  | getcwd (buf : Option Pointer) (size : ℕ)
  | realpath (path : Option (List Char)) (resolvedPath : Option Pointer)
deriving DecidableEq, Repr

def PathCall.program (sdk : Sdk) : PathCall → Call (Option Pointer)
  | stat path => PathCalls.stat sdk path >>= fun _ ↦ return none
  | lstat path => PathCalls.lstat sdk path >>= fun _ ↦ return none
  | access path flags => PathCalls.access sdk path flags >>= fun _ ↦ return none
  | mkdir path => PathCalls.mkdir path >>= fun _ ↦ return none
  | rmdir path => PathCalls.rmdir path >>= fun _ ↦ return none
  | unlink path => PathCalls.unlink path >>= fun _ ↦ return none
  | chown path => PathCalls.chown path >>= fun _ ↦ return none
  | chmod path mode => PathCalls.chmod path mode >>= fun _ ↦ return none
  | utimes ret path times => PathCalls.utimes sdk ret path times >>= fun _ ↦ return none
  | utime ret path buf => PathCalls.utime sdk ret path buf >>= fun _ ↦ return none
  | fopen path mode => PathCalls.fopen path mode >>= fun _ ↦ return none
  | truncate path length => PathCalls.truncate sdk path length >>= fun _ ↦ return none
  | statvfs path buf => PathCalls.statvfs sdk path buf >>= fun _ ↦ return none
  | chdir path => PathCalls.chdir sdk path >>= fun _ ↦ return none
  | getcwd buf size => PathCalls.getcwd buf size >>= fun r ↦
    return if buf = none then r.1.map Prod.fst else none
  | realpath path resolvedPath => PathCalls.realpath' sdk path resolvedPath >>= fun r ↦
    return if resolvedPath = none then r.1.map Prod.fst else none

def PathCall.path : PathCall → Option (List Char)
  | stat path | lstat path | access path _ | mkdir path | rmdir path | unlink path | chown path
  | chmod path _ | utimes _ path _ | utime _ path _ | fopen path _ | statvfs path _
  | chdir path | realpath path _ => path
  | truncate _ _ | getcwd _ _ => none

/-- The content of `__cwd`, the heap, and the number of requests for the state of a drive. -/
structure Process where
  cwd : List Char := []
  heap : Heap := {}
  devctls : ℕ := 0

/-- A path with a drive, in its normal form. -/
def Canonical (path : List Char) : Prop :=
  getDrive path ≠ 0 ∧ Path.normalise path = path ∧ path.length < PATH_MAX

/-- What a request may name. -/
def Request.Canonical : Request → Prop
  | sceFiosStatSync path | sceFiosChangeStatSync path _ _ _ _ | sceFiosDirectoryCreateSync path
  | sceFiosDirectoryDeleteSync path | sceFiosDeleteSync path | sceLibcFopen path _ =>
    PathCalls.Canonical path
  | sceFiosDevctlSync drive => 0 < drive.length ∧ drive.length < 16
  | sceFiosFileTruncateSync _ _ | sceRtcConvertTime_tToDateTime _ | sceRtcGetCurrentClockUtc =>
    True

/-- Blocks are freed that are live, and requests name canonical paths. The system answers as it
will. -/
def world : Rules Ask Ask.Answer Process where
  may s
    | .free p => s.heap.Live p
    | .request q => q.Canonical
    | _ => True
  can s
    | .calloc, x => ∀ p, x = some p → p = .block s.heap.next
    | .loadCwd, x => x = s.cwd
    | _, _ => True
  next s
    | .calloc, x => { s with heap := (s.heap.malloc x.isSome).2 }
    | .free p, _ => { s with heap := s.heap.free (some p) }
    | .storeCwd cwd, _ => { s with cwd := cwd }
    | .request (.sceFiosDevctlSync _), _ => { s with devctls := s.devctls + 1 }
    | _, _ => s

/-- The runs of calls, with the blocks that the callers have been given and have not freed yet. -/
inductive Run (sdk : Sdk) : Process → List Pointer → Prop
  | start : Run sdk {} []
  | call {s : Process} {owned : List Pointer} {tr : List ((q : Ask) × q.Answer)}
      {given : Option Pointer} (c : PathCall) (h : Run sdk s owned)
      (hpath : ∀ path ∈ c.path, Suitable path) (htr : (c.program sdk).Path tr given)
      (hcan : world.Possible s tr) : Run sdk (world.after s tr) (given.toList ++ owned)
  | free {s : Process} (before after : List Pointer) (p : Pointer)
      (h : Run sdk s (before ++ p :: after)) :
      Run sdk { s with heap := s.heap.free (some p) } (before ++ after)

/-- Since `s` these blocks have been allocated and not freed, and the heap and the directory are in
order. -/
structure Grown (s s' : Process) (ps : List Pointer) : Prop where
  tidy : Tidy s'.cwd
  sound : s'.heap.Sound
  live : ∀ q, s'.heap.Live q ↔ s.heap.Live q ∨ q ∈ ps
  nodup : ps.Nodup
  fresh : ∀ p ∈ ps, ¬ s.heap.Live p

/-- The end of a call that leaves a block behind for each drive it has asked for. -/
def Process.Ends (s : Process) (given : Option Pointer) (s' : Process) : Prop :=
  ∃ lost, Grown s s' (given.toList ++ lost) ∧ s'.devctls = s.devctls + lost.length

def Process.Clean (s s' : Process) : Prop := Grown s s' [] ∧ s'.devctls = s.devctls

section

variable {sdk : Sdk} {s s' s'' : Process} {ps : List Pointer} {p : Pointer}
  {path : Option (List Char)} {fullPath cwd : List Char} {α : Type}

theorem Grown.refl (hsound : s.heap.Sound) (hcwd : Tidy s.cwd) : Grown s s [] :=
  ⟨hcwd, hsound, by simp, List.nodup_nil, by simp⟩

theorem Grown.calloc (h : Grown s s' ps) :
    Grown s { s' with heap := (s'.heap.malloc true).2 } (.block s'.heap.next :: ps) := by
  have hnew : ¬ s'.heap.Live (.block s'.heap.next) := fun hlive ↦
    Heap.not_allocated_next hlive.1
  rw [h.live, not_or] at hnew
  refine ⟨h.tidy, h.sound.succ, fun q ↦ ?_, List.nodup_cons.mpr ⟨hnew.2, h.nodup⟩, ?_⟩
  · have hlive := h.sound.live_succ (p := q)
    rw [h.live] at hlive
    rw [List.mem_cons, or_left_comm]
    exact hlive.trans or_comm
  · exact List.forall_mem_cons.mpr ⟨hnew.1, h.fresh⟩

theorem Grown.store (h : Grown s s' ps) (hcwd : Tidy cwd) : Grown s { s' with cwd := cwd } ps :=
  ⟨hcwd, h.sound, h.live, h.nodup, h.fresh⟩

theorem Grown.live_block (h : Grown s s' [p]) : s'.heap.Live p :=
  (h.live p).mpr (.inr (List.mem_singleton_self p))

theorem Grown.free (h : Grown s s' [p]) :
    Grown s { s' with heap := s'.heap.free (some p) } [] := by
  refine ⟨h.tidy, h.sound.free h.live_block, fun q ↦ ?_, List.nodup_nil, by simp⟩
  have hfresh := h.fresh p (List.mem_singleton_self p)
  rw [Heap.live_free, h.live, List.mem_singleton, or_and_right, and_not_self_iff]
  simp only [List.not_mem_nil, or_false]
  exact and_iff_left_of_imp fun hq heq ↦ hfresh (heq ▸ hq)

theorem realpath_canonical (hcwd : Tidy cwd) {p : List Char} (hpath : Suitable p)
    (h : (Path.realpath true cwd (some p)).1 = .ok fullPath) : Canonical fullPath := by
  rcases Path.realpath_tidy hcwd.isCwd hpath h with rfl | hcanonical
  · have hd := Path.fullPath_drive hcwd.isCwd p
    obtain ⟨-, -, hnil⟩ := Path.realpath_ok hcwd.isCwd hpath h
    split at hnil
    · obtain ⟨hdrive, -⟩ := Path.normalise_split hd
      rw [← hnil] at hdrive
      exact absurd hdrive.symm hd
    · simp at hnil
  · exact hcanonical

theorem Canonical.drive (h : Canonical fullPath) :
    (Request.sceFiosDevctlSync (fullPath.take
      (if getDrive fullPath > 15 then 15 else getDrive fullPath))).Canonical := by
  have hd := h.1
  obtain ⟨-, hlen⟩ := Path.getDrive_take_append hd []
  rw [List.length_take] at hlen
  change 0 < (fullPath.take _).length ∧ (fullPath.take _).length < 16
  rw [List.length_take]
  split <;> omega

theorem request_obeys {q : Request} {f : q.Answer → Call α} {post : α → Process → Prop} :
    (request q >>= f).Obeys world s post ↔
      q.Canonical ∧ ∀ x, (f x).Obeys world (world.next s (.request q) x) post :=
  and_congr_right fun _ ↦ forall_congr' fun _ ↦ forall_prop_of_true trivial

theorem Process.Ends.of_clean (h : s.Clean s') : s.Ends none s' := ⟨[], h⟩

theorem realpath_obeys (hsound : s.heap.Sound) (hcwd : Tidy s.cwd)
    (hpath : ∀ p ∈ path, Suitable p) : (realpath path).Obeys world s fun x s' ↦
      s'.devctls = s.devctls ∧
        match x with
        | .error _ => Grown s s' []
        | .ok (p, fullPath) => Grown s s' [p] ∧ Canonical fullPath := by
  have hrefl := Grown.refl hsound hcwd
  cases path with
  | none => exact ⟨rfl, hrefl⟩
  | some path =>
    unfold realpath
    dsimp only
    split
    · exact ⟨rfl, hrefl⟩
    · refine ⟨trivial, fun x hx ↦ ?_⟩
      cases x with
      | none => exact ⟨rfl, hrefl⟩
      | some p =>
        obtain rfl := hx p rfl
        refine ⟨trivial, fun cwd hcwd' ↦ ⟨trivial, fun _ _ ↦ ?_⟩⟩
        obtain rfl : cwd = s.cwd := hcwd'
        have htidy : Tidy (Path.realpath true s.cwd (some path)).2 := by
          rcases Path.realpath_cwd true s.cwd (some path) with h | h
          · rw [h]
            exact hcwd
          · rw [h]
            exact hcwd.init
        have hgrown := hrefl.calloc.store htidy
        cases hres : (Path.realpath true s.cwd (some path)).1 with
        | undefined => exact ⟨trivial, nofun⟩
        | null errno => exact ⟨hgrown.live_block, fun _ _ ↦ ⟨rfl, hgrown.free⟩⟩
        | ok fullPath => exact ⟨rfl, hgrown, realpath_canonical hcwd (hpath path rfl) hres⟩

theorem free_obeys {f : Unit → Call α} {post : α → Process → Prop} :
    (free p >>= f).Obeys world s post ↔
      s.heap.Live p ∧ (f ()).Obeys world { s with heap := s.heap.free (some p) } post :=
  and_congr_right fun _ ↦ ⟨fun h ↦ h () trivial, fun h _ _ ↦ h⟩

theorem finish_obeys (h : Grown s s' [p]) (hcount : s'.devctls = s.devctls) (out : α) :
    (free p >>= fun _ ↦ pure out).Obeys world s' fun _ s'' ↦ s.Clean s'' :=
  free_obeys.mpr ⟨h.live_block, h.free, hcount⟩

theorem withRealpath_obeys (hsound : s.heap.Sound) (hcwd : Tidy s.cwd)
    (hpath : ∀ p ∈ path, Suitable p) {body : Pointer → List Char → Call Outcome}
    (hbody : ∀ p fullPath s', Grown s s' [p] → s'.devctls = s.devctls → Canonical fullPath →
      (body p fullPath).Obeys world s' fun _ s'' ↦ s.Clean s'') :
    (withRealpath path body).Obeys world s fun _ s' ↦ s.Clean s' := by
  refine Program.obeys_bind.mpr ((realpath_obeys hsound hcwd hpath).mono fun x s' hx ↦ ?_)
  cases x with
  | error errno => exact ⟨hx.2, hx.1⟩
  | ok x => exact hbody x.1 x.2 s' hx.2.1 hx.1 hx.2.2

theorem onPath_obeys (hsound : s.heap.Sound) (hcwd : Tidy s.cwd)
    (hpath : ∀ p ∈ path, Suitable p) {q : List Char → Request}
    (ret : (path : List Char) → (q path).Answer → ℤ) (errno : Option ℤ)
    (hq : ∀ fullPath, Canonical fullPath → (q fullPath).Canonical)
    (hkeep : ∀ s fullPath x, world.next s (.request (q fullPath)) x = s) :
    (onPath q ret errno path).Obeys world s fun _ s' ↦ s.Clean s' := by
  refine withRealpath_obeys hsound hcwd hpath fun p fullPath s' h hcount hcanonical ↦ ?_
  refine request_obeys.mpr ⟨hq fullPath hcanonical, fun x ↦ ?_⟩
  rw [hkeep]
  exact finish_obeys h hcount _

theorem stat_obeys (hsound : s.heap.Sound) (hcwd : Tidy s.cwd)
    (hpath : ∀ p ∈ path, Suitable p) :
    (stat sdk path).Obeys world s fun _ s' ↦ s.Clean s' := by
  refine Program.obeys_bind.mpr ((realpath_obeys hsound hcwd hpath).mono fun x s' hx ↦ ?_)
  cases x with
  | error errno => exact ⟨hx.2, hx.1⟩
  | ok x => exact request_obeys.mpr ⟨hx.2.2, fun st ↦ finish_obeys hx.2.1 hx.1 _⟩

theorem access_obeys (hsound : s.heap.Sound) (hcwd : Tidy s.cwd)
    (hpath : ∀ p ∈ path, Suitable p) (flags : ℕ) :
    (access sdk path flags).Obeys world s fun _ s' ↦ s.Clean s' := by
  refine Program.obeys_bind.mpr ((stat_obeys hsound hcwd hpath).mono fun x s' hx ↦ ?_)
  obtain ⟨out, st⟩ := x
  cases st <;> exact hx

theorem chmod_obeys (hsound : s.heap.Sound) (hcwd : Tidy s.cwd)
    (hpath : ∀ p ∈ path, Suitable p) (mode : ℤ) :
    (chmod path mode).Obeys world s fun _ s' ↦ s.Clean s' := by
  refine withRealpath_obeys hsound hcwd hpath fun p fullPath s' h hcount hcanonical ↦ ?_
  refine request_obeys.mpr ⟨hcanonical, fun st ↦ ?_⟩
  dsimp only
  split
  · exact finish_obeys h hcount _
  · exact request_obeys.mpr ⟨hcanonical, fun ret ↦ finish_obeys h hcount _⟩

theorem utimesTimes_obeys (times : Option (Timeval × Timeval)) :
    (utimesTimes sdk times).Obeys world s fun _ s' ↦ s' = s := by
  cases times with
  | none => exact request_obeys.mpr ⟨trivial, fun dt ↦ rfl⟩
  | some times =>
    refine request_obeys.mpr ⟨trivial, fun dt ↦ ?_⟩
    dsimp only
    split
    · exact rfl
    · exact request_obeys.mpr ⟨trivial, fun dt ↦ rfl⟩

theorem utimes_obeys (hsound : s.heap.Sound) (hcwd : Tidy s.cwd)
    (hpath : ∀ p ∈ path, Suitable p) (ret : ℤ) (times : Option (Timeval × Timeval)) :
    (utimes sdk ret path times).Obeys world s fun _ s' ↦ s.Clean s' := by
  refine withRealpath_obeys hsound hcwd hpath fun p fullPath s' h hcount hcanonical ↦ ?_
  refine request_obeys.mpr ⟨hcanonical, fun st ↦ ?_⟩
  dsimp only
  split
  · exact finish_obeys h hcount _
  · refine Program.obeys_bind.mpr ((utimesTimes_obeys times).mono ?_)
    rintro (_ | times) s'' rfl
    · exact finish_obeys h hcount _
    · exact request_obeys.mpr ⟨hcanonical, fun err ↦ finish_obeys h hcount _⟩

theorem fopen_obeys (hsound : s.heap.Sound) (hcwd : Tidy s.cwd)
    (hpath : ∀ p ∈ path, Suitable p) (mode : List Char) :
    (fopen path mode).Obeys world s fun _ s' ↦ s.Clean s' := by
  refine Program.obeys_bind.mpr ((realpath_obeys hsound hcwd hpath).mono fun x s' hx ↦ ?_)
  cases x with
  | error errno => exact ⟨hx.2, hx.1⟩
  | ok x => exact request_obeys.mpr ⟨hx.2.2, fun f ↦ finish_obeys hx.2.1 hx.1 _⟩

theorem chdir_obeys (hsound : s.heap.Sound) (hcwd : Tidy s.cwd)
    (hpath : ∀ p ∈ path, Suitable p) :
    (chdir sdk path).Obeys world s fun _ s' ↦ s.Clean s' := by
  cases path with
  | none => exact ⟨.refl hsound hcwd, rfl⟩
  | some path =>
    refine withRealpath_obeys hsound hcwd hpath fun p fullPath s' h hcount hcanonical ↦ ?_
    refine request_obeys.mpr ⟨hcanonical, fun st ↦ ?_⟩
    dsimp only
    generalize (if st.1 < 0 then st.1
      else if (!sdk.isDir st.2.mode) = true then makeSceErrno ENOTDIR else 0) = ret
    split
    · exact finish_obeys h hcount _
    · exact ⟨trivial, fun _ _ ↦ finish_obeys (h.store (.inr hcanonical)) hcount _⟩

theorem statvfs_obeys (hsound : s.heap.Sound) (hcwd : Tidy s.cwd)
    (hpath : ∀ p ∈ path, Suitable p) (buf : Bool) :
    (statvfs sdk path buf).Obeys world s fun _ s' ↦ s.Ends none s' := by
  have hclean : s.Clean s := ⟨.refl hsound hcwd, rfl⟩
  unfold statvfs
  split
  · exact .of_clean hclean
  · refine Program.obeys_bind.mpr ((realpath_obeys hsound hcwd hpath).mono fun x s' hx ↦ ?_)
    cases x with
    | error errno => exact .of_clean ⟨hx.2, hx.1⟩
    | ok x =>
      obtain ⟨p, fullPath⟩ := x
      obtain ⟨hcount, h, hcanonical⟩ := hx
      -- The block of the path is lost.
      have hends : s.Ends none { s' with devctls := s'.devctls + 1 } := by
        refine ⟨[p], ⟨h.tidy, h.sound, h.live, h.nodup, h.fresh⟩, ?_⟩
        rw [hcount]
        rfl
      refine request_obeys.mpr ⟨?_, fun info ↦ ?_⟩
      · exact hcanonical.drive
      · dsimp only
        split
        · exact hends
        · split
          · exact ⟨trivial, nofun⟩
          · exact hends

theorem getcwd_obeys (hsound : s.heap.Sound) (hcwd : Tidy s.cwd) (buf : Option Pointer)
    (size : ℕ) : (getcwd buf size).Obeys world s fun r s' ↦
      s.Ends (if buf = none then r.1.map Prod.fst else none) s' := by
  refine ⟨trivial, fun cwd hcwd' ↦ ⟨trivial, fun _ _ ↦ ?_⟩⟩
  obtain rfl : cwd = s.cwd := hcwd'
  have hgrown := (Grown.refl hsound hcwd).store hcwd.init
  have hclean : s.Clean { s with cwd := initCwd s.cwd } := ⟨hgrown, rfl⟩
  cases buf with
  | some p =>
    have hend (r : Option (Pointer × List Char) × Option ℤ) :
        s.Ends (if some p = none then r.1.map Prod.fst else none)
          { s with cwd := initCwd s.cwd } := by
      rw [if_neg (Option.some_ne_none p)]
      exact .of_clean hclean
    dsimp only
    split
    · exact hend _
    · split
      · exact hend _
      · exact hend _
  | none =>
    simp only [ne_eq, not_true_eq_false, false_and, if_false]
    refine ⟨trivial, fun x hx ↦ ?_⟩
    cases x with
    | none => exact .of_clean hclean
    | some p =>
      obtain rfl := hx p rfl
      exact ⟨[], hgrown.calloc, rfl⟩

theorem realpath'_obeys (hsound : s.heap.Sound) (hcwd : Tidy s.cwd)
    (hpath : ∀ p ∈ path, Suitable p) (buf : Option Pointer) :
    (realpath' sdk path buf).Obeys world s fun r s' ↦
      s.Ends (if buf = none then r.1.map Prod.fst else none) s' := by
  refine Program.obeys_bind.mpr ((realpath_obeys hsound hcwd hpath).mono fun x s' hx ↦ ?_)
  have hnothing : ∀ {s''}, s.Clean s'' → s.Ends (if buf = none then none else none) s'' := by
    intro s'' hclean
    rw [ite_self]
    exact .of_clean hclean
  cases x with
  | error errno => exact hnothing ⟨hx.2, hx.1⟩
  | ok x =>
    obtain ⟨p, fullPath⟩ := x
    obtain ⟨hcount, h, hcanonical⟩ := hx
    refine request_obeys.mpr ⟨hcanonical, fun st ↦ ?_⟩
    dsimp only
    split
    · exact free_obeys.mpr ⟨h.live_block, hnothing ⟨h.free, hcount⟩⟩
    · cases buf with
      | none => exact ⟨[], h, hcount⟩
      | some buf => exact (finish_obeys h hcount _).mono fun r s'' hclean ↦ .of_clean hclean

theorem truncate_obeys (hsound : s.heap.Sound) (hcwd : Tidy s.cwd) (path : List Char)
    (length : ℤ) : (truncate sdk path length).Obeys world s fun _ s' ↦ s.Clean s' :=
  request_obeys.mpr ⟨trivial, fun _ ↦ ⟨.refl hsound hcwd, rfl⟩⟩

theorem program_obeys (sdk : Sdk) (hsound : s.heap.Sound) (hcwd : Tidy s.cwd) (c : PathCall)
    (hpath : ∀ path ∈ c.path, Suitable path) :
    (c.program sdk).Obeys world s fun given s' ↦ s.Ends given s' := by
  have hclean {α : Type} {p : Call α} (hp : p.Obeys world s fun _ s' ↦ s.Clean s') :
      (p >>= fun _ ↦ (return none : Call (Option Pointer))).Obeys world s
        fun given s' ↦ s.Ends given s' :=
    Program.obeys_bind.mpr (hp.mono fun _ _ h ↦ .of_clean h)
  cases c with
  | stat | lstat => exact hclean (stat_obeys hsound hcwd hpath)
  | access _ flags => exact hclean (access_obeys hsound hcwd hpath flags)
  | mkdir | rmdir | unlink | chown =>
    exact hclean (onPath_obeys hsound hcwd hpath _ _ (fun _ h ↦ h) fun _ _ _ ↦ rfl)
  | chmod _ mode => exact hclean (chmod_obeys hsound hcwd hpath mode)
  | utimes ret _ times => exact hclean (utimes_obeys hsound hcwd hpath ret times)
  | utime ret _ buf => exact hclean (utimes_obeys hsound hcwd hpath ret _)
  | fopen _ mode => exact hclean (fopen_obeys hsound hcwd hpath mode)
  | truncate path length => exact hclean (truncate_obeys hsound hcwd path length)
  | chdir => exact hclean (chdir_obeys hsound hcwd hpath)
  | statvfs _ buf =>
    exact Program.obeys_bind.mpr ((statvfs_obeys hsound hcwd hpath buf).mono fun _ _ h ↦ h)
  | getcwd buf size =>
    exact Program.obeys_bind.mpr ((getcwd_obeys hsound hcwd buf size).mono fun _ _ h ↦ h)
  | realpath _ buf =>
    exact Program.obeys_bind.mpr ((realpath'_obeys hsound hcwd hpath buf).mono fun _ _ h ↦ h)

end

/-- What is live belongs to a caller or has been lost. -/
structure Process.Holds (s : Process) (owned lost : List Pointer) : Prop where
  sound : s.heap.Sound
  tidy : Tidy s.cwd
  live : ∀ p, s.heap.Live p ↔ p ∈ owned ++ lost
  nodup : (owned ++ lost).Nodup
  lost : lost.length = s.devctls

section

variable {sdk : Sdk} {s s' : Process} {owned lost : List Pointer} {given : Option Pointer}

theorem Process.Holds.call (h : s.Holds owned lost) (hends : s.Ends given s') :
    ∃ lost', s'.Holds (given.toList ++ owned) lost' := by
  obtain ⟨more, hgrown, hcount⟩ := hends
  have hperm : ((given.toList ++ owned) ++ (more ++ lost)).Perm
      ((given.toList ++ more) ++ (owned ++ lost)) := by
    simp only [List.append_assoc]
    exact (List.perm_append_left_iff _).mpr (List.perm_append_comm_assoc _ _ _)
  refine ⟨more ++ lost, hgrown.sound, hgrown.tidy, fun p ↦ ?_, ?_, ?_⟩
  · rw [hgrown.live, h.live, hperm.mem_iff, List.mem_append (s := given.toList ++ more)]
    exact or_comm
  · rw [hperm.nodup_iff]
    refine List.nodup_append.mpr ⟨hgrown.nodup, h.nodup, fun p hp q hq heq ↦ ?_⟩
    exact hgrown.fresh p hp ((h.live p).mpr (heq ▸ hq))
  · rw [List.length_append, h.lost, hcount, Nat.add_comm]

theorem Process.Holds.free {before after : List Pointer} {p : Pointer}
    (h : s.Holds (before ++ p :: after) lost) :
    Process.Holds { s with heap := s.heap.free (some p) } (before ++ after) lost := by
  have hperm : ((before ++ p :: after) ++ lost).Perm (p :: ((before ++ after) ++ lost)) :=
    List.perm_middle.append_right lost
  have hnodup := List.nodup_cons.mp (hperm.nodup_iff.mp h.nodup)
  have hp : s.heap.Live p := (h.live p).mpr (hperm.mem_iff.mpr List.mem_cons_self)
  refine ⟨h.sound.free hp, h.tidy, fun q ↦ ?_, hnodup.2, h.lost⟩
  rw [Heap.live_free, h.live, hperm.mem_iff, List.mem_cons, or_and_right, and_not_self_iff,
    false_or]
  exact and_iff_left_of_imp fun hq heq ↦ hnodup.1 (heq ▸ hq)

end

/-- In every run of the calls that take a path, what is allocated is what `getcwd` and `realpath`
have given to their callers and one block for each drive that `statvfs` has asked for; each call
frees what is live and asks for canonical paths only, from a directory that is one. -/
theorem path_calls_balanced {sdk : Sdk} {s : Process} {owned : List Pointer}
    (h : Run sdk s owned) : (∃ lost, s.Holds owned lost) ∧
      ∀ (c : PathCall) (tr : List ((q : Ask) × q.Answer)) (given : Option Pointer),
        (∀ path ∈ c.path, Suitable path) → (c.program sdk).Path tr given →
        world.Possible s tr → world.Follows s tr := by
  suffices hholds : ∃ lost, s.Holds owned lost by
    obtain ⟨lost, hholds⟩ := hholds
    refine ⟨⟨lost, hholds⟩, fun c tr given hpath htr hcan ↦ ?_⟩
    exact ((program_obeys sdk hholds.sound hholds.tidy c hpath).path htr hcan).1
  induction h with
  | start =>
    exact ⟨[], Heap.sound_empty, .inl rfl, by simp [Heap.Live, Heap.Allocated], List.nodup_nil, rfl⟩
  | call c _ hpath htr hcan ih =>
    obtain ⟨lost, hholds⟩ := ih
    exact hholds.call ((program_obeys sdk hholds.sound hholds.tidy c hpath).path htr hcan).2
  | free before after p _ ih =>
    obtain ⟨lost, hholds⟩ := ih
    exact ⟨lost, hholds.free⟩

def zeroSdk : Sdk := ⟨fun _ ↦ 0, fun _ ↦ false, fun _ ↦ false, 0, fun _ ↦ 0, fun _ ↦ 0⟩

theorem realpath_path {path full cwd cwd' : List Char} (hne : path.length ≠ 0)
    (hres : Path.realpath true cwd (some path) = (.ok full, cwd')) (p : Pointer) :
    (realpath (some path)).Path
      [⟨.calloc, some p⟩, ⟨.loadCwd, cwd⟩, ⟨.storeCwd cwd', ()⟩] (.ok (p, full)) := by
  unfold realpath
  dsimp only
  rw [if_neg hne]
  apply Program.Path.ask
  apply Program.Path.ask
  rw [hres]
  exact .ask _ _ _ (.ret _)

/-- The process that has asked for its directory without a buffer, and for the path of a file in
it. -/
theorem path_calls_balanced_realpath : ∃ s, Run zeroSdk s [.block 1, .block 0] ∧
    (∃ lost, s.Holds [.block 1, .block 0] lost) ∧
    ∀ (c : PathCall) (tr : List ((q : Ask) × q.Answer)) (given : Option Pointer),
      (∀ path ∈ c.path, Suitable path) → (c.program zeroSdk).Path tr given →
      world.Possible s tr → world.Follows s tr := by
  have hgetcwd : ((PathCall.getcwd none 0).program zeroSdk).Path
      [⟨.loadCwd, []⟩, ⟨.storeCwd "app0:".toList, ()⟩, ⟨.calloc, some (.block 0)⟩]
      (some (.block 0)) := .ask _ _ _ (.ask _ _ _ (.ask _ _ _ (.ret _)))
  have hlook : (realpath (some ['a'])).Path
      [⟨.calloc, some (.block 1)⟩, ⟨.loadCwd, "app0:".toList⟩, ⟨.storeCwd "app0:".toList, ()⟩]
      (.ok (.block 1, "app0:/a".toList)) :=
    realpath_path (by decide) (by decide +kernel) (.block 1)
  have hstat : (request (.sceFiosStatSync "app0:/a".toList)).Path
      [⟨Ask.request (.sceFiosStatSync "app0:/a".toList), (0, {})⟩] (0, {}) :=
    .ask _ _ _ (.ret _)
  have hcall : (realpath' zeroSdk (some ['a']) none).Path _
      (some (.block 1, "app0:/a".toList), none) := hlook.bind (hstat.bind (.ret _))
  have hrealpath : ((PathCall.realpath (some ['a']) none).program zeroSdk).Path _
      (some (.block 1)) := hcall.bind (.ret _)
  have hsuitable : ∀ path ∈ (PathCall.realpath (some ['a']) none).path, Suitable path := by
    intro path hpath
    obtain rfl := Option.some.inj hpath
    exact fun hdrive ↦ absurd (by decide) hdrive
  have hstart : Run zeroSdk {} [] := .start
  have hfirst := hstart.call (.getcwd none 0) nofun hgetcwd
    ⟨rfl, trivial, fun p hp ↦ (Option.some.inj hp).symm, trivial⟩
  have hrun := hfirst.call (.realpath (some ['a']) none) hsuitable hrealpath
    ⟨fun p hp ↦ (Option.some.inj hp).symm, rfl, trivial, trivial, trivial⟩
  exact ⟨_, hrun, path_calls_balanced hrun⟩

end SceLibcPosix.PathCalls
