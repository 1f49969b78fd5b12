import SceLibcPosix.Descriptor.Calls

namespace SceLibcPosix.Descriptor

open Errno VitaError Programs

structure Revents where
  pollIn : Bool := false
  pollOut : Bool := false
  pollErr : Bool := false
  pollHup : Bool := false
deriving DecidableEq, Repr

/-- `struct pollfd`; `pollIn` and `pollOut` are the bits of `events` that the code looks at. -/
structure PollFd where
  fd : ℤ
  pollIn : Bool
  pollOut : Bool
  revents : Revents := {}
deriving DecidableEq, Repr

/-- A regular file always polls true for in and out. -/
def PollFd.ready (p : PollFd) : PollFd :=
  { p with revents :=
      { p.revents with
        pollIn := p.revents.pollIn || p.pollIn
        pollOut := p.revents.pollOut || p.pollOut } }

def PollFd.report (p : PollFd) (e : EpollEvents) : PollFd :=
  { p with revents :=
      { pollIn := p.revents.pollIn || e.epollIn
        pollOut := p.revents.pollOut || e.epollOut
        pollErr := p.revents.pollErr || e.epollErr
        pollHup := p.revents.pollHup || e.epollHup } }

/-- One turn of the first loop of `poll`: the element, what it locks, and how much it adds to the
result. -/
def pollFd (eid : ℤ) (n : ℕ) (p : PollFd) : Call (PollFd × Option Entry × ℤ) := do
  let p := { p with revents := {} }
  if p.fd < 0 then return (p, none, 0)
  else if !p.pollIn && !p.pollOut then return (p, none, 0)
  else
    withFd p.fd
      (do
        let pos ← kernel (.fhTell p.fd)
        if pos < 0 then return (p, none, 0)
        else return (p.ready, none, 1))
      fun i d ↦ do
        if d.type ≠ .SOCKET then
          let _ ← drop i
          return if d.type = .FILE then (p.ready, none, 1) else (p, none, 0)
        else
          let ev := { events := { epollIn := p.pollIn, epollOut := p.pollOut }, fd := n }
          let _ ← use i d (.sceNetEpollControl eid ev)
          return (p, some i, 0)

def pollLoop (eid : ℤ) : ℕ → List PollFd → Call (List PollFd × List Entry × ℤ)
  | _, [] => return ([], [], 0)
  | n, p :: pfd => do
    let (p, lock, k) ← pollFd eid n p
    let (pfd, locks, res) ← pollLoop eid (n + 1) pfd
    return (p :: pfd, lock.toList ++ locks, k + res)

def dropAll : List Entry → Call Unit
  | [] => return ()
  | i :: locks => do
    let _ ← drop i
    dropAll locks

def reportAll (pfd : List PollFd) (events : List EpollEvent) : List PollFd :=
  events.foldl (fun pfd e ↦ pfd.modify e.fd.toNat fun p ↦ p.report e.events) pfd

def poll (net : NetErrno → ℤ) (pfd : List PollFd) (timeout : ℤ) :
    Call (Outcome × List PollFd) :=
  let wait := timeout * 1000
  if MAX_OPEN_FILES ≤ pfd.length then return (fail EINVAL, pfd)
  else if pfd.length = 0 then do
    let _ ← kernel (.delayThread (wait % 2 ^ 32))
    return (⟨0, none⟩, pfd)
  else do
    let eid ← kernel (.epollCreate "poll")
    if eid < 0 then return (fail (scenetErrnoToErrno net eid), pfd)
    else
      let (pfd, locks, res) ← pollLoop eid 0 pfd
      let nev ← kernel (.epollWait eid MAX_OPEN_FILES (wait.bmod (2 ^ 32)))
      let _ ← kernel (.epollDestroy eid)
      dropAll locks
      return match nev with
        | .error n => (fail (scenetErrnoToErrno net (Int.negSucc n)), pfd)
        | .ok events => (⟨res + events.length, none⟩, reportAll pfd events)

abbrev FdSet := ℕ → Bool

/-- The sets that `select` gets, where they are no null pointers. -/
structure FdSets where
  readfds : Option FdSet
  writefds : Option FdSet
  exceptfds : Option FdSet

def isSet (set : Option FdSet) (fd : ℕ) : Bool := set.any (· fd)

def fdSet (fd : ℤ) : Option FdSet → Call (Option FdSet)
  | none => fault
  | some set => return some (Function.update set fd.toNat true)

def fdSetIf (on : Bool) (fd : ℤ) (set : Option FdSet) : Call (Option FdSet) :=
  if on then fdSet fd set else return set

def selectFd (eid : ℤ) (sets : FdSets) (i : ℕ) : Call (Option Entry) :=
  let events : EpollEvents :=
    { epollIn := isSet sets.readfds i
      epollOut := isSet sets.writefds i
      epollErr := isSet sets.exceptfds i }
  if events = {} then return none
  else
    withFd i (return none) fun fdmap d ↦ do
      if d.type ≠ .SOCKET then
        let _ ← drop fdmap
        return none
      else
        let _ ← use fdmap d (.sceNetEpollControl eid ⟨events, i⟩)
        return some fdmap

def selectLoop (eid : ℤ) (sets : FdSets) : List ℕ → Call (List Entry)
  | [] => return []
  | i :: fds => do
    let lock ← selectFd eid sets i
    let locks ← selectLoop eid sets fds
    return lock.toList ++ locks

def markEvent (sets : FdSets) (e : EpollEvent) : Call (FdSets × ℤ) := do
  let readfds ← fdSetIf e.events.epollIn e.fd sets.readfds
  let writefds ← fdSetIf e.events.epollOut e.fd sets.writefds
  let exceptfds ← fdSetIf e.events.epollErr e.fd sets.exceptfds
  return (⟨readfds, writefds, exceptfds⟩,
    e.events.epollIn.toNat + e.events.epollOut.toNat + e.events.epollErr.toNat)

def markAll (sets : FdSets) (res : ℤ) : List EpollEvent → Call (FdSets × ℤ)
  | [] => return (sets, res)
  | e :: events => do
    let (sets, k) ← markEvent sets e
    markAll sets (res + k) events

def FdSets.zero (sets : FdSets) : FdSets where
  readfds := sets.readfds.map fun _ _ ↦ false
  writefds := sets.writefds.map fun _ _ ↦ false
  exceptfds := sets.exceptfds.map fun _ _ ↦ false

/-- `select`: its result and the sets. `timeout` is a number of seconds and one of microseconds. -/
def select (net : NetErrno → ℤ) (nfds : ℤ) (sets : FdSets) (timeout : Option (ℤ × ℤ)) :
    Call (Outcome × FdSets) :=
  if nfds < 0 ∨ MAX_OPEN_FILES ≤ nfds then return (fail EINVAL, sets)
  else
    let wait := (timeout.map fun t ↦ (t.1 * 1000000 + t.2).bmod (2 ^ 32)).getD (-1)
    if nfds = 0 then do
      if 0 < wait then
        let _ ← kernel (.delayThread wait)
        return (⟨0, none⟩, sets)
      else return (⟨0, none⟩, sets)
    else do
      let eid ← kernel (.epollCreate "")
      if eid < 0 then return (fail (scenetErrnoToErrno net eid), sets)
      else
        let locks ← selectLoop eid sets (List.range nfds.toNat)
        let nev ← kernel (.epollWait eid 255 wait)
        let (out, sets) ← (match nev with
          | .error n => return (fail (scenetErrnoToErrno net (Int.negSucc n)), sets)
          | .ok events => do
            let (sets, res) ← markAll sets.zero 0 events
            return (⟨res, none⟩, sets) : Call (Outcome × FdSets))
        let _ ← kernel (.epollDestroy eid)
        dropAll locks
        return (out, sets)

end SceLibcPosix.Descriptor
