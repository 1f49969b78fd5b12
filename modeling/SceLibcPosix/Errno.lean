import Mathlib.Data.Int.Notation

/-! Error numbers of the C library that the code is built with. -/

namespace SceLibcPosix.Errno

def EPERM : ℤ := 1
def ENOENT : ℤ := 2
def ESRCH : ℤ := 3
def EINTR : ℤ := 4
def EIO : ℤ := 5
def ENXIO : ℤ := 6
def E2BIG : ℤ := 7
def ENOEXEC : ℤ := 8
def EBADF : ℤ := 9
def ECHILD : ℤ := 10
def EAGAIN : ℤ := 11
def ENOMEM : ℤ := 12
def EACCES : ℤ := 13
def EFAULT : ℤ := 14
def ENOTBLK : ℤ := 15
def EBUSY : ℤ := 16
def EEXIST : ℤ := 17
def EXDEV : ℤ := 18
def ENODEV : ℤ := 19
def ENOTDIR : ℤ := 20
def EISDIR : ℤ := 21
def EINVAL : ℤ := 22
def ENFILE : ℤ := 23
def EMFILE : ℤ := 24
def ENOTTY : ℤ := 25
def ETXTBSY : ℤ := 26
def EFBIG : ℤ := 27
def ENOSPC : ℤ := 28
def ESPIPE : ℤ := 29
def EROFS : ℤ := 30
def EMLINK : ℤ := 31
def EPIPE : ℤ := 32
def EDOM : ℤ := 33
def ERANGE : ℤ := 34
def EIDRM : ℤ := 36
def EDEADLK : ℤ := 45
def ENOLCK : ℤ := 46
def ENOSTR : ℤ := 60
def ENODATA : ℤ := 61
def ETIME : ℤ := 62
def ENOSR : ℤ := 63
def EREMOTE : ℤ := 66
def EBADMSG : ℤ := 77
def ENOSYS : ℤ := 88
def ENOTEMPTY : ℤ := 90
def ENAMETOOLONG : ℤ := 91
def ELOOP : ℤ := 92
def EOPNOTSUPP : ℤ := 95
def EPFNOSUPPORT : ℤ := 96
def ECONNRESET : ℤ := 104
def ENOBUFS : ℤ := 105
def EAFNOSUPPORT : ℤ := 106
def EPROTOTYPE : ℤ := 107
def ENOTSOCK : ℤ := 108
def ENOPROTOOPT : ℤ := 109
def ESHUTDOWN : ℤ := 110
def ECONNREFUSED : ℤ := 111
def EADDRINUSE : ℤ := 112
def ECONNABORTED : ℤ := 113
def ENETUNREACH : ℤ := 114
def ENETDOWN : ℤ := 115
def ETIMEDOUT : ℤ := 116
def EHOSTDOWN : ℤ := 117
def EHOSTUNREACH : ℤ := 118
def EINPROGRESS : ℤ := 119
def EALREADY : ℤ := 120
def EDESTADDRREQ : ℤ := 121
def EMSGSIZE : ℤ := 122
def EPROTONOSUPPORT : ℤ := 123
def ESOCKTNOSUPPORT : ℤ := 124
def EADDRNOTAVAIL : ℤ := 125
def ENETRESET : ℤ := 126
def EISCONN : ℤ := 127
def ENOTCONN : ℤ := 128
def ETOOMANYREFS : ℤ := 129
def EUSERS : ℤ := 131
def EDQUOT : ℤ := 132
def ESTALE : ℤ := 133
def ENOTSUP : ℤ := 134
def EILSEQ : ℤ := 138
def EOVERFLOW : ℤ := 139
def ECANCELED : ℤ := 140

end SceLibcPosix.Errno
