import Mathlib.Algebra.GroupWithZero.Nat
import Mathlib.Data.List.FinRange
import Mathlib.Logic.Function.Basic
import Mathlib.Tactic.Simps.Basic
import SceLibcPosix.VitaError

namespace SceLibcPosix.Descriptor

open Errno VitaError

abbrev MAX_OPEN_FILES : ℕ := 256

instance : NeZero MAX_OPEN_FILES := ⟨by decide⟩

abbrev Slot := Fin MAX_OPEN_FILES

abbrev Entry := Fin MAX_OPEN_FILES

inductive DescriptorTypes
  | FILE | DIRECTORY | SOCKET | TTY | PIPE
deriving DecidableEq, Repr

/-- The defaults are what `memset` leaves. -/
structure DescriptorTranslation where
  sceUid : ℤ := 0
  type : DescriptorTypes := .FILE
  refCount : ℤ := 0
deriving DecidableEq, Repr

/-- The kernel objects that a descriptor stands for, each family with handles of its own. -/
inductive KernelObject
  | file (fh : ℤ)
  | directory (dh : ℤ)
  | socket (id : ℤ)
  | msgPipe (uid : ℤ)
  | stdio (uid : ℤ)
deriving DecidableEq, Repr

/-- The kernel calls that create and destroy objects. A creation that succeeded is logged with the
object it returned. -/
inductive KernelCall
  | created (o : KernelObject)
  | close (o : KernelObject) (ret : ℤ)
deriving DecidableEq, Repr

/-- `__fdmap`, `__fdmap_pool`, the holds of `_fd_mutex` and the kernel calls made, last call
first. -/
structure Table where
  fdmap : Slot → Option Entry
  pool : Entry → DescriptorTranslation
  held : ℕ
  calls : List KernelCall

namespace Table

@[simps -fullyApplied] def lock (t : Table) : Table := { t with held := t.held + 1 }

@[simps -fullyApplied] def unlock (t : Table) : Table := { t with held := t.held - 1 }

@[simps -fullyApplied] def call (t : Table) (c : KernelCall) : Table :=
  { t with calls := c :: t.calls }

@[simps -fullyApplied] def setSlot (t : Table) (s : Slot) (v : Option Entry) : Table :=
  { t with fdmap := Function.update t.fdmap s v }

@[simps -fullyApplied] def setEntry (t : Table) (i : Entry) (d : DescriptorTranslation) : Table :=
  { t with pool := Function.update t.pool i d }

def addRef (t : Table) (i : Entry) (n : ℤ) : Table :=
  t.setEntry i { t.pool i with refCount := (t.pool i).refCount + n }

def fill (t : Table) (i : Entry) (uid : ℤ) (type : DescriptorTypes) : Table :=
  t.setEntry i { t.pool i with sceUid := uid, type := type }

def fillSlot (t : Table) (s : Slot) (uid : ℤ) (type : DescriptorTypes) : Table :=
  match t.fdmap s with
  | none => t
  | some i => t.fill i uid type

end Table

/-- `_init_fd`, with what `sceKernelGetStdin`, `sceKernelGetStdout` and `sceKernelGetStderr`
return. -/
def initFd (stdin stdout stderr : ℤ) : Table where
  fdmap s := if s.val < 3 then some s else none
  pool i :=
    match i.val with
    | 0 => ⟨stdin, .TTY, 1⟩
    | 1 => ⟨stdout, .TTY, 1⟩
    | 2 => ⟨stderr, .TTY, 1⟩
    | _ => {}
  held := 0
  calls := []

/-- The index that an `int` makes into `__fdmap`. -/
def slotOf (fd : ℤ) : Option Slot :=
  if h : 0 ≤ fd ∧ fd < MAX_OPEN_FILES then some ⟨fd.toNat, by omega⟩ else none

def openAt (t : Table) (fd : ℤ) : Option (Slot × Entry) :=
  (slotOf fd).bind fun s ↦ (t.fdmap s).map (s, ·)

def isFdValid (t : Table) (fd : ℤ) : Bool := (openAt t fd).isSome

/-- The slots of the loops `for (fd = min; fd < MAX_OPEN_FILES; ++fd)`. -/
def slotsFrom (min : ℤ) : List Slot :=
  (List.finRange MAX_OPEN_FILES).filter fun s ↦ min ≤ s.val

/-- `__acquire_descriptor`: the slot, or `none` for -1. -/
def acquireDescriptor (t : Table) : Option Slot × Table :=
  let t := t.lock
  let found := (slotsFrom 3).findSome? fun fd ↦
    if t.fdmap fd = none then
      ((List.finRange MAX_OPEN_FILES).find? fun i ↦ (t.pool i).refCount = 0).map (fd, ·)
    else none
  match found with
  | some (fd, i) =>
    let t := t.setSlot fd (some i)
    (some fd, (t.setEntry i { t.pool i with refCount := 1 }).unlock)
  | none => (none, t.unlock)

/-- The object that an entry of each type stands for. -/
def DescriptorTranslation.object (d : DescriptorTranslation) : KernelObject :=
  match d.type with
  | .TTY => .stdio d.sceUid
  | .FILE => .file d.sceUid
  | .DIRECTORY => .directory d.sceUid
  | .SOCKET => .socket d.sceUid
  | .PIPE => .msgPipe d.sceUid

/-- `__fd_drop`; `r` is what the close routine returns where it is called. -/
def fdDrop (net : NetErrno → ℤ) (t : Table) (i : Entry) (r : ℤ) : ℤ × Table :=
  let t := t.lock
  let map := t.pool i
  if map.refCount = 1 then
    let t := t.call (.close map.object r)
    if map.type = .SOCKET ∧ r < 0 then (negInt (scenetErrnoToErrno net r), t.unlock)
    else if r < 0 then (negInt (sceErrnoToErrno net r .GENERIC), t.unlock)
    else (0, (t.setEntry i {}).unlock)
  else (0, (t.addRef i (-1)).unlock)

def releaseDescriptor (net : NetErrno → ℤ) (t : Table) (fd : ℤ) (r : ℤ) : ℤ × Table :=
  let t := t.lock
  match openAt t fd with
  | none => (-1, t.unlock)
  | some (s, i) =>
    let (ret, t) := fdDrop net t i r
    if 0 ≤ ret then (0, (t.setSlot s none).unlock) else (-1, t.unlock)

/-- `__duplicate_descriptor`: the slot, or the error number it sets, if any. -/
def duplicateDescriptor (t : Table) (fd minfd : ℤ) : Except (Option ℤ) Slot × Table :=
  let t := t.lock
  match openAt t fd with
  | none => (.error none, t.unlock)
  | some (_, i) =>
    let minfd := if minfd < 3 then 3 else minfd
    match (slotsFrom minfd).find? fun fd2 ↦ t.fdmap fd2 = none with
    | none => (.error (some EMFILE), t.unlock)
    | some fd2 => (.ok fd2, ((t.setSlot fd2 (some i)).addRef i 1).unlock)

def duplicateDescriptor2 (net : NetErrno → ℤ) (t : Table) (oldfd : ℤ) (newfd : Slot) (r : ℤ) :
    Option Slot × Table :=
  let t := t.lock
  match openAt t oldfd with
  | none => (none, t.unlock)
  | some (s, _) =>
    -- this return leaves the mutex locked
    if s = newfd then (some newfd, t)
    else
      let t := (releaseDescriptor net t newfd.val r).2
      match t.fdmap newfd, t.fdmap s with
      | none, some i => (some newfd, ((t.setSlot newfd (some i)).addRef i 1).unlock)
      | _, _ => (none, t.unlock)

def fdGrab (t : Table) (fd : ℤ) : Option Entry × Table :=
  let t := t.lock
  match openAt t fd with
  | none => (none, t.unlock)
  | some (_, i) => (some i, (t.addRef i 1).unlock)

end SceLibcPosix.Descriptor
