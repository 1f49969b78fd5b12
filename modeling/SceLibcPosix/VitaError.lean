import Mathlib.Algebra.Group.Nat.Defs
import Mathlib.Algebra.Ring.Int.Defs
import SceLibcPosix.Errno

namespace SceLibcPosix.VitaError

open Errno

/-- All codes of `fios2.h`, in the order of their values. -/
inductive FiosError
  | UNIMPLEMENTED | CANT_ALLOCATE_OP | CANT_ALLOCATE_FH | CANT_ALLOCATE_DH | CANT_ALLOCATE_CHUNK
  | BAD_PATH | BAD_PTR | BAD_OFFSET | BAD_SIZE | BAD_IOVCNT | BAD_OP | BAD_FH | BAD_DH
  | BAD_ALIGNMENT | NOT_A_FILE | NOT_A_DIRECTORY | EOF | TIMEOUT | CANCELLED | ACCESS
  | DECOMPRESSION | READ_ONLY | WRITE_ONLY | MEDIA_GONE | PATH_TOO_LONG | TOO_MANY_OVERLAYS
  | BAD_OVERLAY | BAD_ORDER | BAD_INDEX | EVENT_NOT_HANDLED | BUSY | BAD_ARCHIVE | BAD_RESOLVE_TYPE
  | BAD_FLAGS | UNKNOWN | ALREADY_EXISTS
deriving DecidableEq, Repr

def fiosErrors : List FiosError := [
  .UNIMPLEMENTED, .CANT_ALLOCATE_OP, .CANT_ALLOCATE_FH, .CANT_ALLOCATE_DH, .CANT_ALLOCATE_CHUNK,
  .BAD_PATH, .BAD_PTR, .BAD_OFFSET, .BAD_SIZE, .BAD_IOVCNT, .BAD_OP, .BAD_FH, .BAD_DH,
  .BAD_ALIGNMENT, .NOT_A_FILE, .NOT_A_DIRECTORY, .EOF, .TIMEOUT, .CANCELLED, .ACCESS,
  .DECOMPRESSION, .READ_ONLY, .WRITE_ONLY, .MEDIA_GONE, .PATH_TOO_LONG, .TOO_MANY_OVERLAYS,
  .BAD_OVERLAY, .BAD_ORDER, .BAD_INDEX, .EVENT_NOT_HANDLED, .BUSY, .BAD_ARCHIVE, .BAD_RESOLVE_TYPE,
  .BAD_FLAGS, .UNKNOWN, .ALREADY_EXISTS]

/-- The `int` value of a code: they count up from 0x80820000. -/
def FiosError.code (e : FiosError) : ℤ := 0x80820000 + fiosErrors.idxOf e - 2 ^ 32

/-- The error numbers of `sceNet` that `__scenet_errno_to_errno` names. Their values are those of
the network library. -/
inductive NetErrno
  | EPERM | ENOENT | ESRCH | EINTR | EIO | ENXIO | E2BIG | ENOEXEC | EBADF | ECHILD | EDEADLK
  | ENOMEM | EACCES | EFAULT | ENOTBLK | EBUSY | EEXIST | EXDEV | ENODEV | ENOTDIR | EISDIR | EINVAL
  | ENFILE | EMFILE | ENOTTY | ETXTBSY | EFBIG | ENOSPC | ESPIPE | EROFS | EMLINK | EPIPE | EDOM
  | ERANGE | EAGAIN | EINPROGRESS | EALREADY | ENOTSOCK | EDESTADDRREQ | EMSGSIZE | EPROTOTYPE
  | ENOPROTOOPT | EPROTONOSUPPORT | ESOCKTNOSUPPORT | EOPNOTSUPP | EPFNOSUPPORT | EAFNOSUPPORT
  | EADDRINUSE | EADDRNOTAVAIL | ENETDOWN | ENETUNREACH | ENETRESET | ECONNABORTED | ECONNRESET
  | ENOBUFS | EISCONN | ENOTCONN | ESHUTDOWN | ETOOMANYREFS | ETIMEDOUT | ECONNREFUSED | ELOOP
  | ENAMETOOLONG | EHOSTDOWN | EHOSTUNREACH | ENOTEMPTY | EUSERS | EDQUOT | ESTALE | EREMOTE
  | ENOLCK | ENOSYS | EIDRM | EOVERFLOW | EILSEQ | ENOTSUP | ECANCELED | EBADMSG | ENODATA | ENOSR
  | ENOSTR | ETIME
deriving DecidableEq, Repr

def fiosCases : List (FiosError × ℤ) := [
  (.ACCESS, EPERM), (.BAD_PATH, ENOENT), (.UNIMPLEMENTED, EIO), (.CANT_ALLOCATE_OP, EIO),
  (.CANT_ALLOCATE_FH, EIO), (.CANT_ALLOCATE_DH, EIO), (.CANT_ALLOCATE_CHUNK, EIO),
  (.BAD_ARCHIVE, EIO), (.BAD_FH, EBADF), (.BAD_DH, EBADF), (.NOT_A_FILE, EISDIR),
  (.NOT_A_DIRECTORY, ENOTDIR), (.READ_ONLY, EROFS), (.EOF, ERANGE), (.MEDIA_GONE, ENODEV),
  (.BUSY, EBUSY), (.ALREADY_EXISTS, EEXIST), (.CANCELLED, EINTR), (.PATH_TOO_LONG, ENAMETOOLONG),
  (.BAD_PTR, EINVAL), (.BAD_OFFSET, EINVAL), (.BAD_SIZE, EINVAL), (.BAD_IOVCNT, EINVAL),
  (.BAD_ALIGNMENT, EINVAL), (.BAD_FLAGS, EINVAL), (.BAD_RESOLVE_TYPE, EINVAL)]

def scefios2ErrnoToErrno (x : ℤ) : ℤ :=
  ((fiosCases.find? fun c ↦ c.1.code = x).map Prod.snd).getD x

def netCases : List (NetErrno × ℤ) := [
  (.EPERM, EPERM), (.ENOENT, ENOENT), (.ESRCH, ESRCH), (.EINTR, EINTR),
  ( NetErrno.EIO, EIO), ( NetErrno.ENXIO, ENXIO), (.E2BIG, E2BIG), (.ENOEXEC, ENOEXEC),
  (.EBADF, EBADF), (.ECHILD, ECHILD), (.EDEADLK, EDEADLK), (.ENOMEM, ENOMEM), (.EACCES, EACCES),
  (.EFAULT, EFAULT), (.ENOTBLK, ENOTBLK),
  (.EBUSY, EBUSY), (.EEXIST, EEXIST), (.EXDEV, EXDEV), (.ENODEV, ENODEV), (.ENOTDIR, ENOTDIR),
  (.EISDIR, EISDIR), (.EINVAL, EINVAL), (.ENFILE, ENFILE), (.EMFILE, EMFILE), (.ENOTTY, ENOTTY),
  (.ETXTBSY, ETXTBSY), (.EFBIG, EFBIG), (.ENOSPC, ENOSPC), (.ESPIPE, ESPIPE), (.EROFS, EROFS),
  (.EMLINK, EMLINK), (.EPIPE, EPIPE), (.EDOM, EDOM), (.ERANGE, ERANGE), (.EAGAIN, EAGAIN),
  (.EINPROGRESS, EINPROGRESS), (.EALREADY, EALREADY), (.ENOTSOCK, ENOTSOCK),
  (.EDESTADDRREQ, EDESTADDRREQ), (.EMSGSIZE, EMSGSIZE), (.EPROTOTYPE, EPROTOTYPE),
  (.ENOPROTOOPT, ENOPROTOOPT), (.EPROTONOSUPPORT, EPROTONOSUPPORT),
  (.ESOCKTNOSUPPORT, ESOCKTNOSUPPORT), (.EOPNOTSUPP, EOPNOTSUPP), (.EPFNOSUPPORT, EPFNOSUPPORT),
  (.EAFNOSUPPORT, EAFNOSUPPORT), (.EADDRINUSE, EADDRINUSE), (.EADDRNOTAVAIL, EADDRNOTAVAIL),
  (.ENETDOWN, ENETDOWN), (.ENETUNREACH, ENETUNREACH), (.ENETRESET, ENETRESET),
  (.ECONNABORTED, ECONNABORTED), (.ECONNRESET, ECONNRESET), (.ENOBUFS, ENOBUFS),
  (.EISCONN, EISCONN), (.ENOTCONN, ENOTCONN), (.ESHUTDOWN, ESHUTDOWN),
  (.ETOOMANYREFS, ETOOMANYREFS), (.ETIMEDOUT, ETIMEDOUT), (.ECONNREFUSED, ECONNREFUSED),
  (.ELOOP, ELOOP), (.ENAMETOOLONG, ENAMETOOLONG), (.EHOSTDOWN, EHOSTDOWN),
  (.EHOSTUNREACH, EHOSTUNREACH), (.ENOTEMPTY, ENOTEMPTY), (.EUSERS, EUSERS), (.EDQUOT, EDQUOT),
  (.ESTALE, ESTALE), (.EREMOTE, EREMOTE), (.ENOLCK, ENOLCK), (.ENOSYS, ENOSYS), (.EIDRM, EIDRM),
  (.EOVERFLOW, EOVERFLOW), (.EILSEQ, EILSEQ), (.ENOTSUP, ENOTSUP), (.ECANCELED, ECANCELED),
  (.EBADMSG, EBADMSG), (.ENODATA, ENODATA), (.ENOSR, ENOSR), (.ENOSTR, ENOSTR), (.ETIME, ETIME)]

def scenetErrnoToErrno (net : NetErrno → ℤ) (x : ℤ) : ℤ :=
  ((netCases.find? fun c ↦ net c.1 = x % 256).map Prod.snd).getD x

inductive ErrorType
  | GENERIC | SOCKET | FIOS
deriving DecidableEq, Repr

def sceErrnoToErrno (net : NetErrno → ℤ) (x : ℤ) : ErrorType → ℤ
  | .FIOS => scefios2ErrnoToErrno x
  | .SOCKET => scenetErrnoToErrno net x
  | .GENERIC => x % 256

def makeSceErrno (e : ℤ) : ℤ := 0x80010000 + e - 2 ^ 32

def negInt (x : ℤ) : ℤ := (-x).bmod (2 ^ 32)

/-- A positive error number that fits the low byte of a code. -/
def RealErrno (e : ℤ) : Prop := 1 ≤ e ∧ e ≤ 255

instance (e : ℤ) : Decidable (RealErrno e) := inferInstanceAs (Decidable (_ ∧ _))

/-- The codes that the decoder of each type has a translation for. -/
def Translated (net : NetErrno → ℤ) (r : ℤ) : ErrorType → Prop
  | .GENERIC => r % 256 ≠ 0
  | .SOCKET => ∃ c ∈ netCases, net c.1 = r % 256
  | .FIOS => ∃ c ∈ fiosCases, c.1.code = r

theorem realErrno_lookup {κ : Type} {cases : List (κ × ℤ)} (hcases : ∀ c ∈ cases, RealErrno c.2)
    (p : κ → Prop) [DecidablePred p] {r : ℤ} (hr : r < 0) :
    RealErrno (((cases.find? fun c ↦ p c.1).map Prod.snd).getD r) ↔ ∃ c ∈ cases, p c.1 := by
  cases h : cases.find? fun c ↦ p c.1 with
  | none =>
    have hno := List.find?_eq_none.mp h
    refine iff_of_false (fun hreal ↦ ?_) fun ⟨c, hc, hp⟩ ↦ hno c hc (decide_eq_true hp)
    have hpos : 1 ≤ r := hreal.1
    omega
  | some c =>
    have hc := List.mem_of_find?_eq_some h
    have hp := List.find?_some h
    exact iff_of_true (hcases c hc) ⟨c, hc, of_decide_eq_true hp⟩

theorem sceErrnoToErrno_real {net : NetErrno → ℤ} {r : ℤ} (hr : r < 0) (t : ErrorType) :
    RealErrno (sceErrnoToErrno net r t) ↔ Translated net r t := by
  cases t with
  | GENERIC =>
    simp only [sceErrnoToErrno, RealErrno, Translated]
    omega
  | SOCKET => exact realErrno_lookup (by decide) (fun n ↦ net n = r % 256) hr
  | FIOS => exact realErrno_lookup (by decide) (fun f : FiosError ↦ f.code = r) hr

theorem makeSceErrno_neg {e : ℤ} (he : RealErrno e) : makeSceErrno e < 0 := by
  have := he.2
  unfold makeSceErrno
  omega

/-- No code of FIOS is one that the library makes. -/
theorem scefios2ErrnoToErrno_make {e : ℤ} (he : RealErrno e) :
    scefios2ErrnoToErrno (makeSceErrno e) = makeSceErrno e := by
  have hcodes : ∀ c ∈ fiosCases, -0x7f7e0000 ≤ c.1.code := by decide
  have hnone : (fiosCases.find? fun c ↦ c.1.code = makeSceErrno e) = none := by
    refine List.find?_eq_none.mpr fun c hc heq ↦ ?_
    have hle := hcodes c hc
    have := he.2
    rw [of_decide_eq_true heq, makeSceErrno] at hle
    omega
  rw [scefios2ErrnoToErrno, hnone]
  rfl

/-- Which failures become a real error number, and which decoder undoes `__make_sce_errno`. -/
theorem errno_translation (net : NetErrno → ℤ) :
    (∀ r t, r < 0 → (RealErrno (sceErrnoToErrno net r t) ↔ Translated net r t)) ∧
    ∀ e t, RealErrno e → t = .GENERIC ∨ t = .FIOS →
      (sceErrnoToErrno net (makeSceErrno e) t = e ↔ t = .GENERIC) := by
  refine ⟨fun r t hr ↦ sceErrnoToErrno_real hr t, fun e t he ht ↦ ?_⟩
  have hpos := he.1
  have hle := he.2
  rcases ht with rfl | rfl
  · refine iff_of_true ?_ rfl
    simp only [sceErrnoToErrno, makeSceErrno]
    omega
  · refine iff_of_false (fun h ↦ ?_) (by decide)
    have hneg := makeSceErrno_neg he
    have hraw : makeSceErrno e = e := (scefios2ErrnoToErrno_make he).symm.trans h
    omega

theorem errno_translation_ebadf :
    RealErrno (sceErrnoToErrno (fun _ ↦ 0) FiosError.BAD_FH.code .FIOS) ∧
    sceErrnoToErrno (fun _ ↦ 0) (makeSceErrno EBADF) .GENERIC = EBADF := by
  have h := errno_translation fun _ ↦ 0
  exact ⟨(h.1 _ .FIOS (by decide)).mpr ⟨(.BAD_FH, EBADF), by decide, rfl⟩,
    (h.2 EBADF .GENERIC (by decide) (.inl rfl)).mpr rfl⟩

/-- What `lseek` sets `errno` to on a pipe. -/
theorem lseek_espipe_raw :
    ¬ RealErrno (sceErrnoToErrno (fun _ ↦ 0) (makeSceErrno ESPIPE) .FIOS) ∧
    sceErrnoToErrno (fun _ ↦ 0) (makeSceErrno ESPIPE) .FIOS ≠ ESPIPE := by
  decide

end SceLibcPosix.VitaError
