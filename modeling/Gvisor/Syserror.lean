/-! The error values of pkg/syserror that the modelled functions return.
`errWouldBlock` is `ErrWouldBlock`, "request would block", which the syscall
layer turns into `EAGAIN`. -/

namespace Syserror

inductive Errno where
  | EACCES
  | EAGAIN
  | EBADF
  | EEXIST
  | EDEADLK
  | EFAULT
  | EFBIG
  | EIDRM
  | EINVAL
  | ELIBBAD
  | ELOOP
  | EMFILE
  | ENAMETOOLONG
  | ENOENT
  | ENOEXEC
  | ENOMEM
  | ENOSYS
  | EOVERFLOW
  | EPERM
  | EPIPE
  | ERANGE
  | EUSERS
  | errWouldBlock
  deriving DecidableEq, Repr

end Syserror
