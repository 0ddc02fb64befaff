/-!
# Error numbers (kernel/errno.h)
-/
namespace NeoKernel

inductive Errno where
  | eaddrinuse
  | eagain
  | ebadf
  | ebusy
  | econnrefused
  | econnreset
  | edeadlk
  | edestaddrreq
  | eexist
  | efault
  | efbig
  | eintr
  | einval
  | eio
  | eisconn
  | emfile
  | emsgsize
  | enametoolong
  | enetdown
  | enetunreach
  | enobufs
  | enodev
  | enoent
  | enolck
  | enomem
  | enospc
  | enosys
  | enotconn
  | epipe
  | erofs
  | etimedout
  deriving DecidableEq, Repr

end NeoKernel
