import SceLibcPosix.Descriptor.Create
import SceLibcPosix.Descriptor.Steps
import SceLibcPosix.Lib.Heap

namespace SceLibcPosix.Dirents

open Errno VitaError Programs Descriptor Heaps

/-- A kernel with a state of its own, which answers whatever it is asked. -/
abbrev Oracle (σ : Type) := (q : KernelAsk) → σ → q.Answer × σ

def O_RDONLY : BitVec 32 := 0

def newDir (fd : ℤ) : Dir := ⟨fd, ⟨0, List.replicate 256 0⟩, 0⟩

def opendirCommon (h : Heap) (ok : Bool) (fd : ℤ) : Option (Pointer × Dir) × ℤ × Heap :=
  match h.malloc ok with
  | (none, h) => (none, ENOMEM, h)
  | (some p, h) => (some (p, newDir fd), 0, h)

/-- `close`; `r` is what the close routine returns where it is called. -/
def close (net : NetErrno → ℤ) (t : Table) (fd r : ℤ) : Outcome × Table :=
  let (res, t) := releaseDescriptor net t fd r
  (if res < 0 then fail EBADF else ⟨0, some 0⟩, t)

/-- `opendir`: the stream, `errno`, and what is left. -/
def opendir (net : NetErrno → ℤ) (t : Table) (k : Answers) (fullPath : Except ℤ String) (h : Heap)
    (ok : Bool) (r : ℤ) : Option (Pointer × Dir) × ℤ × Table × Heap :=
  match open' net t k fullPath (O_RDONLY ||| O_DIRECTORY) with
  | (.error e, t) => (none, e, t, h)
  | (.ok fd, t) =>
    match opendirCommon h ok fd.val with
    | (none, e, h) =>
      let (out, t) := close net t fd.val r
      (none, out.errno.getD e, t, h)
    | (some d, e, h) => (some d, e, t, h)

def closedir (net : NetErrno → ℤ) (t : Table) (h : Heap) (dirp : Option (Pointer × Dir)) (r : ℤ) :
    Outcome × Table × Heap :=
  match dirp with
  | none => (fail EBADF, t, h)
  | some (p, dir) =>
    if dir.fd = 0 then (fail EBADF, t, h)
    else
      let (out, t) := close net t dir.fd r
      (if out.ret < 0 then ⟨-1, out.errno⟩ else ⟨0, some 0⟩, t, h.free (some p))

def telldir (dirp : Option Dir) : Outcome :=
  match dirp with
  | none => fail EBADF
  | some dir => ⟨dir.index, none⟩

/-- `readdir_r`: what it returns, what it stores in `*entry` and points `*result` to, and the
stream. -/
def readdirR (net : NetErrno → ℤ) (dirp : Option Dir) :
    Call ((ℤ × Option Dirent) × Option Dir) := do
  let (out, dirp) ← readdir net dirp
  let errno := out.errno.getD 0
  if errno ≠ 0 ∧ out.ret = 0 then return ((errno, none), dirp)
  else if out.ret ≠ 0 then return ((0, dirp.map Dir.dir), dirp)
  else return ((0, none), dirp)

/-- The loop of `seekdir`: the last error number set, if the fuel has lasted. -/
def seekLoop (net : NetErrno → ℤ) (index : ℤ) :
    ℕ → Option ℤ → Option Dir → Call (Option (Option ℤ) × Option Dir)
  | 0, _, dirp => return (none, dirp)
  | _ + 1, _, none => fault
  | fuel + 1, e, some dir =>
    if index = dir.index then return (some e, some dir)
    else do
      let (out, dirp) ← readdir net (some dir)
      if out.ret = 0 then return (some (some ENOENT), dirp)
      else seekLoop net index fuel e dirp

def seekBack (net : NetErrno → ℤ) (index : ℤ) (dir : Dir) : Call (Option ℤ × Option Dir) :=
  if index < dir.index then do
    let (e, dirp) ← rewinddir net (some dir)
    return (some e, dirp)
  else return (none, some dir)

def seekRest (net : NetErrno → ℤ) (index : ℤ) (fuel : ℕ) (e : Option ℤ) :
    Option Dir → Call (Option (Option ℤ) × Option Dir)
  | none => fault
  | some dir =>
    if index < dir.index then return (some e, some dir)
    else seekLoop net index fuel e (some dir)

def seekdir (net : NetErrno → ℤ) (fuel : ℕ) (index : ℤ) (dirp : Option Dir) :
    Call (Option (Option ℤ) × Option Dir) :=
  match dirp with
  | none => return (some (some EBADF), none)
  | some dir => do
    let (e, dirp) ← seekBack net index dir
    seekRest net index fuel e dirp

structure Listing (σ : Type) where
  dir : Dir
  table : Table
  kernel : σ

def Listing.run {σ α : Type} (net : NetErrno → ℤ) (K : Oracle σ) (st : Listing σ)
    (p : Option Dir → Call (α × Option Dir)) : Option (α × Listing σ) :=
  match (p (some st.dir)).run (serve net K) (st.table, st.kernel) with
  | some ((a, some dir), t, k) => some (a, ⟨dir, t, k⟩)
  | _ => none

inductive Stop
  | finished
  | readdir (errno : ℤ)
  | tooLong
  | noMemory
deriving DecidableEq, Repr

def Stop.errno : Stop → ℤ
  | finished | tooLong => 0
  | readdir e => e
  | noMemory => ENOMEM

/-- The variables of the loop of `scandir`: `names` and what it points to, `len`, and the heap with
the number of its requests so far. -/
structure Scan where
  names : Option Pointer := none
  records : List (Pointer × Dirent) := []
  len : ℕ := 0
  heap : Heap
  asked : ℕ

def SIZE_MAX : ℕ := 2 ^ 32 - 1

def Scan.reserve (grants : ℕ → Bool) (s : Scan) : Except Stop Scan :=
  if s.len ≤ s.records.length then
    let len := 2 * s.len + 1
    if SIZE_MAX / 4 < len then .error .tooLong
    else
      match s.heap.realloc (grants s.asked) s.names with
      | (none, _) => .error .noMemory
      | (some names, heap) =>
        .ok { s with names := some names, len := len, heap := heap, asked := s.asked + 1 }
  else .ok s

def Scan.record (grants : ℕ → Bool) (s : Scan) (de : Dirent) : Except Stop Scan :=
  match s.heap.malloc (grants s.asked) with
  | (none, _) => .error .noMemory
  | (some p, heap) =>
    .ok { s with records := s.records ++ [(p, de)], heap := heap, asked := s.asked + 1 }

/-- The loop of `scandir`: where it stops, if the fuel lasts. -/
def scanLoop {σ : Type} (net : NetErrno → ℤ) (K : Oracle σ) (sel : Option (Dirent → Bool))
    (grants : ℕ → Bool) : ℕ → Listing σ → Scan → Option (Stop × Listing σ × Scan)
  | 0, _, _ => none
  | fuel + 1, st, s => do
    let (out, st) ← st.run net K (readdir net)
    if out.ret = 0 then return (out.errno.elim .finished .readdir, st, s)
    else if sel.any fun sel ↦ !sel st.dir.dir then scanLoop net K sel grants fuel st s
    else
      match s.reserve grants with
      | .error stop => return (stop, st, s)
      | .ok s =>
        match s.record grants st.dir.dir with
        | .error stop => return (stop, st, s)
        | .ok s => scanLoop net K sel grants fuel st s

/-- What `scandir` returns and stores in `*res`, the heap it leaves, and which of its calls have
failed. -/
structure Scanned where
  ret : ℤ
  errno : ℤ
  res : Option (List (Pointer × Dirent))
  heap : Heap
  stop : Option Stop
  closed : ℤ

/-- The end of `scandir`, from `closedir` on. `opened` is `errno` after `opendir`. -/
def Scan.finish (qsort : (Dirent → Dirent → ℤ) → List (Pointer × Dirent) → List (Pointer × Dirent))
    (cmp : Option (Dirent → Dirent → ℤ)) (opened : ℤ) (stop : Stop) (s : Scan)
    (closed : Outcome) : Scanned :=
  if closed.errno.getD stop.errno ≠ 0 then
    let heap := if s.names = none then s.heap
      else s.records.foldr (fun x h ↦ h.free (some x.1)) s.heap
    ⟨-1, closed.errno.getD stop.errno, none, heap.free s.names, some stop, closed.ret⟩
  else
    ⟨s.records.length, opened, some (cmp.elim s.records fun cmp ↦ qsort cmp s.records), s.heap,
      some stop, closed.ret⟩

/-- `scandir`, with `qsort`, the answers to its requests for memory, the first one that of
`opendir`, and what the close routine returns. -/
def scandir {σ : Type} (net : NetErrno → ℤ) (K : Oracle σ)
    (qsort : (Dirent → Dirent → ℤ) → List (Pointer × Dirent) → List (Pointer × Dirent))
    (grants : ℕ → Bool) (r : ℤ) (fuel : ℕ) (t : Table) (kernel : σ) (h : Heap) (k : Answers)
    (fullPath : Except ℤ String) (sel : Option (Dirent → Bool))
    (cmp : Option (Dirent → Dirent → ℤ)) : Option Scanned :=
  match opendir net t k fullPath h (grants 0) r with
  | (none, e, _, h) => some ⟨-1, e, none, h, none, 0⟩
  | (some (p, dir), e, t, h) => do
    let (stop, st, s) ← scanLoop net K sel grants fuel ⟨dir, t, kernel⟩ { heap := h, asked := 1 }
    let (closed, _, h) := closedir net st.table s.heap (some (p, st.dir)) r
    return { s with heap := h }.finish qsort cmp e stop closed

end SceLibcPosix.Dirents
