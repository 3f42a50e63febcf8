/-! The error numbers the modelled calls return; the kernel returns them negated. -/
namespace Miviex

inductive Errno where
  | eperm
  | enoent
  | esrch
  | eintr
  | eio
  | enxio
  | enoexec
  | ebadf
  | echild
  | eagain
  | enomem
  | eacces
  | efault
  | ebusy
  | eexist
  | exdev
  | enodev
  | enotdir
  | eisdir
  | einval
  | emfile
  | enotty
  | erofs
  | epipe
  | erange
  | enametoolong
  | enotempty
  | eloop
  | emsgsize
  | eprototype
  | eprotonosupport
  | esocktnosupport
  | eopnotsupp
  | eafnosupport
  | eaddrinuse
  | eisconn
  | enotconn
  | econnrefused
  deriving DecidableEq, Repr

def Errno.code : Errno → Nat
  | eperm => 1
  | enoent => 2
  | esrch => 3
  | eintr => 4
  | eio => 5
  | enxio => 6
  | enoexec => 8
  | ebadf => 9
  | echild => 10
  | eagain => 11
  | enomem => 12
  | eacces => 13
  | efault => 14
  | ebusy => 16
  | eexist => 17
  | exdev => 18
  | enodev => 19
  | enotdir => 20
  | eisdir => 21
  | einval => 22
  | emfile => 24
  | enotty => 25
  | erofs => 30
  | epipe => 32
  | erange => 34
  | enametoolong => 36
  | enotempty => 39
  | eloop => 40
  | emsgsize => 90
  | eprototype => 91
  | eprotonosupport => 93
  | esocktnosupport => 94
  | eopnotsupp => 95
  | eafnosupport => 97
  | eaddrinuse => 98
  | eisconn => 106
  | enotconn => 107
  | econnrefused => 111

/- What a call that may sleep stops with. ERESTARTSYS is between the call and the return to
user space, which starts the call over or answers EINTR. -/
inductive Stop where
  | errno (e : Errno)
  | restartsys
  deriving DecidableEq, Repr

/- A call that has moved something already returns that instead of the error. -/
def partialOr (done : Nat) (e : Stop) : Except Stop Nat := if done ≠ 0 then .ok done else .error e

end Miviex
