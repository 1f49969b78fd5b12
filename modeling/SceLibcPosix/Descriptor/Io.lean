import SceLibcPosix.Descriptor.Table
import SceLibcPosix.Lib.ScatterGather

namespace SceLibcPosix.Descriptor

open Errno VitaError ScatterGather

def SSIZE_MAX : ℕ := 2 ^ 31 - 1

/-- The transfers that the calls ask the kernel for, with the handle and the length or the bytes.
The vectored ones of FIOS get the lengths or the contents of the buffers. -/
inductive Request
  | ioRead (uid : ℤ) (len : ℕ)
  | ioWrite (uid : ℤ) (bytes : List UInt8)
  | ioPread (uid : ℤ) (len : ℕ) (off : ℤ)
  | ioPwrite (uid : ℤ) (bytes : List UInt8) (off : ℤ)
  | fhRead (fh : ℤ) (len : ℕ)
  | fhWrite (fh : ℤ) (bytes : List UInt8)
  | fhPread (fh : ℤ) (len : ℕ) (off : ℤ)
  | fhPwrite (fh : ℤ) (bytes : List UInt8) (off : ℤ)
  | fhReadv (fh : ℤ) (lens : List ℕ)
  | fhWritev (fh : ℤ) (bufs : List (List UInt8))
  | fhPreadv (fh : ℤ) (lens : List ℕ) (off : ℤ)
  | fhPwritev (fh : ℤ) (bufs : List (List UInt8)) (off : ℤ)
  | netRecv (id : ℤ) (len : ℕ)
  | netSend (id : ℤ) (bytes : List UInt8)
  | receiveMsgPipe (uid : ℤ) (len : ℕ)
  | sendMsgPipe (uid : ℤ) (bytes : List UInt8)
deriving DecidableEq, Repr

/-- How a transfer ends: with a negative code, or with the bytes that have been moved. -/
inductive Transfer
  | failed (n : ℕ)
  | moved (data : List UInt8)
deriving DecidableEq, Repr

def Transfer.ret : Transfer → ℤ
  | .failed n => Int.negSucc n
  | .moved data => data.length

def Transfer.data : Transfer → List UInt8
  | .failed _ => []
  | .moved data => data

def Transfer.refused (e : ℤ) : Transfer := .failed (-makeSceErrno e - 1).toNat

/-- The behaviour of the kernel, over a state of its own. -/
structure Kernel (σ : Type) where
  run : Request → σ → Transfer × σ
  fhTell : ℤ → σ → ℤ × σ

/-- What FIOS's vectored calls are said to do: they transfer like the plain ones. -/
structure Kernel.Vectored {σ : Type} (K : Kernel σ) : Prop where
  readv : ∀ fh lens, K.run (.fhReadv fh lens) = K.run (.fhRead fh lens.sum)
  writev : ∀ fh bufs, K.run (.fhWritev fh bufs) = K.run (.fhWrite fh bufs.flatten)
  preadv : ∀ fh lens off, K.run (.fhPreadv fh lens off) = K.run (.fhPread fh lens.sum off)
  pwritev : ∀ fh bufs off, K.run (.fhPwritev fh bufs off) = K.run (.fhPwrite fh bufs.flatten off)

structure State (σ : Type) where
  table : Table
  errno : ℤ
  kernel : σ
  mem : ℕ → UInt8

variable {σ : Type}

def finish (net : NetErrno → ℤ) (type : ErrorType) (ret : ℤ) (s : State σ) : ℤ × State σ :=
  if ret < 0 then
    (-1, if ret ≠ -1 then { s with errno := sceErrnoToErrno net ret type } else s)
  else (ret, { s with errno := 0 })

/-- The switches of the plain calls: what they ask for an entry, by its type (nothing for a
directory), and for a number that is not an open descriptor, if they take it for a handle. -/
structure Plain where
  entry : DescriptorTranslation → Option (ErrorType × Request)
  handle : Option (ℤ → Request)

def Plain.ask (c : Plain) (K : Kernel σ) (d : DescriptorTranslation) (k : σ) :
    ErrorType × Transfer × σ :=
  match c.entry d with
  | none => (.GENERIC, .refused EBADF, k)
  | some (type, q) => (type, K.run q k)

/-- A plain call: its result and the bytes it has moved. `r` is what a close routine returns. -/
def Plain.call (c : Plain) (K : Kernel σ) (net : NetErrno → ℤ) (r : ℤ) (s : State σ) (fd : ℤ) :
    (ℤ × List UInt8) × State σ :=
  match fdGrab s.table fd with
  | (none, t) =>
    match c.handle with
    | none => ((-1, []), { s with table := t, errno := EBADF })
    | some q =>
      let (pos, k) := K.fhTell fd s.kernel
      if pos < 0 then ((-1, []), { s with table := t, errno := EBADF, kernel := k })
      else
        let (x, k) := K.run (q fd) k
        let (ret, s) := finish net .FIOS x.ret { s with table := t, kernel := k }
        ((ret, x.data), s)
  | (some i, t) =>
    let (type, x, k) := c.ask K (t.pool i) s.kernel
    let (ret, s) := finish net type x.ret
      { s with table := (fdDrop net t i r).2, kernel := k }
    ((ret, x.data), s)

def readPlain (len : ℕ) : Plain where
  entry d :=
    match d.type with
    | .TTY => some (.GENERIC, .ioRead d.sceUid len)
    | .FILE => some (.FIOS, .fhRead d.sceUid len)
    | .SOCKET => some (.SOCKET, .netRecv d.sceUid len)
    | .DIRECTORY => none
    | .PIPE => some (.GENERIC, .receiveMsgPipe d.sceUid (if 4 * 4096 < len then 4 * 4096 else len))
  handle := some fun fd ↦ .fhRead fd len

def writePlain (bytes : List UInt8) : Plain where
  entry d :=
    match d.type with
    | .TTY => some (.GENERIC, .ioWrite d.sceUid bytes)
    | .FILE => some (.FIOS, .fhWrite d.sceUid bytes)
    | .SOCKET => some (.SOCKET, .netSend d.sceUid bytes)
    | .DIRECTORY => none
    | .PIPE => some (.GENERIC, .sendMsgPipe d.sceUid (bytes.take (4 * 4096)))
  handle := some fun fd ↦ .fhWrite fd bytes

def preadPlain (len : ℕ) (off : ℤ) : Plain where
  entry d :=
    match d.type with
    | .DIRECTORY => none
    | .FILE => some (.FIOS, .fhPread d.sceUid len off)
    | .TTY | .SOCKET | .PIPE => some (.GENERIC, .ioPread d.sceUid len off)
  handle := none

def pwritePlain (bytes : List UInt8) (off : ℤ) : Plain where
  entry d :=
    match d.type with
    | .DIRECTORY => none
    | .FILE => some (.FIOS, .fhPwrite d.sceUid bytes off)
    | .TTY | .SOCKET | .PIPE => some (.GENERIC, .ioPwrite d.sceUid bytes off)
  handle := none

def read (K : Kernel σ) (net : NetErrno → ℤ) (r : ℤ) (s : State σ) (fd : ℤ) (len : ℕ) :
    (ℤ × List UInt8) × State σ :=
  (readPlain len).call K net r s fd

def write (K : Kernel σ) (net : NetErrno → ℤ) (r : ℤ) (s : State σ) (fd : ℤ)
    (bytes : List UInt8) : (ℤ × List UInt8) × State σ :=
  (writePlain bytes).call K net r s fd

def pread (K : Kernel σ) (net : NetErrno → ℤ) (r : ℤ) (s : State σ) (fd : ℤ) (len : ℕ) (off : ℤ) :
    (ℤ × List UInt8) × State σ :=
  (preadPlain len off).call K net r s fd

def pwrite (K : Kernel σ) (net : NetErrno → ℤ) (r : ℤ) (s : State σ) (fd : ℤ)
    (bytes : List UInt8) (off : ℤ) : (ℤ × List UInt8) × State σ :=
  (pwritePlain bytes off).call K net r s fd

/-- The loop that adds up the lengths; `none` where it would pass `SSIZE_MAX`. -/
def totalFrom (bytes : ℕ) : List (ℕ × ℕ) → Option ℕ
  | [] => some bytes
  | v :: iov => if SSIZE_MAX - bytes < v.2 then none else totalFrom (bytes + v.2) iov

def scatter (mem : ℕ → UInt8) : List (ℕ × ℕ) → List UInt8 → ℕ → UInt8
  | [], _ => mem
  | v :: iov, buffer =>
    let copy := min v.2 buffer.length
    let mem := storeAll mem (List.range' v.1 copy) buffer
    if buffer.length - copy = 0 then mem else scatter mem iov (buffer.drop copy)

def gather (mem : ℕ → UInt8) : ℕ → List (ℕ × ℕ) → List UInt8
  | _, [] => []
  | toCopy, v :: iov =>
    let copy := min v.2 toCopy
    let rest := if toCopy - copy = 0 then [] else gather mem (toCopy - copy) iov
    (List.range' v.1 copy).map mem ++ rest

/-- The parts in which the vectored calls differ: the plain call they are made of, for the length of
the buffers, what they ask FIOS for, and what becomes of the bytes that have been moved. `copyOut`
is the loop of the code, `lay` what FIOS does. -/
structure VectorCall where
  plain : ℕ → Plain
  fios : ℤ → Request
  copyOut : (ℕ → UInt8) → List UInt8 → ℕ → UInt8
  lay : (ℕ → UInt8) → List UInt8 → ℕ → UInt8

/-- `__readv`, `__writev`, `__preadv` and `__pwritev`. `alloc` says whether `malloc` succeeds. -/
def VectorCall.helper (v : VectorCall) (K : Kernel σ) (net : NetErrno → ℤ) (r : ℤ) (alloc : Bool)
    (s : State σ) (fd : ℤ) (iov : List (ℕ × ℕ)) : ℤ × State σ :=
  match totalFrom 0 iov with
  | none => (-1, s)
  | some bytes =>
    if !alloc then (-1, s)
    else
      let ((ret, data), s) := (v.plain bytes).call K net r s fd
      if ret < 0 then (-1, s) else (ret, { s with mem := v.copyOut s.mem data })

def VectorCall.call (v : VectorCall) (K : Kernel σ) (net : NetErrno → ℤ) (r : ℤ) (alloc : Bool)
    (s : State σ) (fd : ℤ) (iov : List (ℕ × ℕ)) : ℤ × State σ :=
  match fdGrab s.table fd with
  | (none, t) =>
    match (v.plain 0).handle with
    | none => (-1, { s with table := t, errno := EBADF })
    | some _ =>
      let (pos, k) := K.fhTell fd s.kernel
      if pos < 0 then (-1, { s with table := t, errno := EBADF, kernel := k })
      else
        let (x, k) := K.run (v.fios fd) k
        finish net .FIOS x.ret { s with table := t, kernel := k, mem := v.lay s.mem x.data }
  | (some i, t) =>
    let uid := (t.pool i).sceUid
    let (type, ret, s) : ErrorType × ℤ × State σ :=
      match (t.pool i).type with
      | .TTY | .PIPE | .SOCKET =>
        (.GENERIC, v.helper K net r alloc { s with table := t } uid iov)
      | .FILE =>
        let (x, k) := K.run (v.fios uid) s.kernel
        (.FIOS, x.ret, { s with table := t, kernel := k, mem := v.lay s.mem x.data })
      | .DIRECTORY => (.GENERIC, (Transfer.refused EBADF).ret, { s with table := t })
    finish net type ret { s with table := (fdDrop net s.table i r).2 }

def readvCall (iov : List (ℕ × ℕ)) : VectorCall where
  plain := readPlain
  fios fh := .fhReadv fh (iov.map Prod.snd)
  copyOut mem data := scatter mem iov data
  lay mem data := layOut mem iov data

def writevCall (mem : ℕ → UInt8) (iov : List (ℕ × ℕ)) : VectorCall where
  plain n := writePlain (gather mem n iov)
  fios fh := .fhWritev fh (iov.map fun v ↦ (List.range' v.1 v.2).map mem)
  copyOut mem _ := mem
  lay mem _ := mem

def preadvCall (iov : List (ℕ × ℕ)) (off : ℤ) : VectorCall where
  plain n := preadPlain n off
  fios fh := .fhPreadv fh (iov.map Prod.snd) off
  copyOut mem data := scatter mem iov data
  lay mem data := layOut mem iov data

def pwritevCall (mem : ℕ → UInt8) (iov : List (ℕ × ℕ)) (off : ℤ) : VectorCall where
  plain n := pwritePlain (gather mem n iov) off
  fios fh := .fhPwritev fh (iov.map fun v ↦ (List.range' v.1 v.2).map mem) off
  copyOut mem _ := mem
  lay mem _ := mem

def readv (K : Kernel σ) (net : NetErrno → ℤ) (r : ℤ) (alloc : Bool) (s : State σ) (fd : ℤ)
    (iov : List (ℕ × ℕ)) : ℤ × State σ :=
  (readvCall iov).call K net r alloc s fd iov

def writev (K : Kernel σ) (net : NetErrno → ℤ) (r : ℤ) (alloc : Bool) (s : State σ) (fd : ℤ)
    (iov : List (ℕ × ℕ)) : ℤ × State σ :=
  (writevCall s.mem iov).call K net r alloc s fd iov

def preadv (K : Kernel σ) (net : NetErrno → ℤ) (r : ℤ) (alloc : Bool) (s : State σ) (fd : ℤ)
    (iov : List (ℕ × ℕ)) (off : ℤ) : ℤ × State σ :=
  (preadvCall iov off).call K net r alloc s fd iov

def pwritev (K : Kernel σ) (net : NetErrno → ℤ) (r : ℤ) (alloc : Bool) (s : State σ) (fd : ℤ)
    (iov : List (ℕ × ℕ)) (off : ℤ) : ℤ × State σ :=
  (pwritevCall s.mem iov off).call K net r alloc s fd iov

end SceLibcPosix.Descriptor
