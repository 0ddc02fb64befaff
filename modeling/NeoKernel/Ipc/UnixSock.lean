import NeoKernel.Ipc.Pipe
import NeoKernel.Lib.Trans
import NeoKernel.Sched.FdTable

/-!
# Unix stream sockets (kernel/ipc/unix_sock.c)

A connection is two directions, each a pipe with the descriptors in flight toward its reader.
A step is one system call, or one piece of the work a `close` leaves behind: the last reference to
a socket closes its directions, the last one to a direction closes the descriptors in flight in
it, which may be sockets again. `todo` is what is left of this recursion, done in any order.
-/
namespace NeoKernel.UnixSock
open Lib Fd Ipc

def unixMaxBound : Nat := 32

def unixBacklogMax : Nat := 16

def scmMaxFds : Nat := 8

inductive File where
  | sock (x : Nat)
  | other (o : Nat)
  deriving DecidableEq, Repr

/-- `struct unix_dir`; `ring` is `none` once the pipe is freed. -/
structure UnixDir where
  ring : Option Pipe
  batches : List (List File)
  refs : Nat

structure UnixConn where
  rd : Nat
  wr : Nat
  deriving DecidableEq, Repr

/-- The state with what is valid in it only. -/
inductive UState where
  | unbound
  | bound
  | listening (backlog : List UnixConn) (blMax : Nat)
  | connected (conn : UnixConn)
  deriving DecidableEq, Repr

structure Sock where
  state : UState
  refs : Nat
  deriving DecidableEq, Repr

/-- What is left to do for a `close`. -/
inductive Task where
  | closeFile (f : File)
  | putDir (d : Nat) (side : Side)
  deriving DecidableEq, Repr

/-- The connections a socket keeps: its own, or those nobody has accepted. -/
def UState.conns : UState → List UnixConn
  | .unbound => []
  | .bound => []
  | .listening backlog _ => backlog
  | .connected conn => [conn]

def UnixConn.close (c : UnixConn) : List Task := [.putDir c.rd .reader, .putDir c.wr .writer]

structure Unix where
  tables : Tables File
  socks : Table Nat Sock
  dirs : Table Nat UnixDir
  bound : List (List UInt8 × Nat)
  others : Nat → Nat
  todo : List Task
  /-- Not in the source: an object was used after it was freed. -/
  fault : Bool

namespace Unix

def setFault (s : Unix) : Unix := { s with fault := true }

def setSock (s : Unix) (x : Nat) (k : Sock) : Unix := { s with socks := s.socks.insert x k }

def setDir (s : Unix) (d : Nat) (q : UnixDir) : Unix := { s with dirs := s.dirs.insert d q }

def setOther (s : Unix) (o n : Nat) : Unix := { s with others := Function.update s.others o n }

def later (s : Unix) (ts : List Task) : Unix := { s with todo := s.todo ++ ts }

/-! ## References -/

def unixDirGet (s : Unix) (d : Nat) (side : Side) : Unix :=
  match s.dirs.lookup d with
  | none => s.setFault
  | some q =>
      match q.ring with
      | none => s.setFault
      | some r =>
          let r' := r.dupEp side.asReader side.asWriter
          s.setDir d { q with ring := some r', refs := q.refs + 1 }

/-- `unix_dir_put`: with the last reference what is still in flight is closed. -/
def unixDirPut (s : Unix) (d : Nat) (side : Side) : Unix :=
  match s.dirs.lookup d with
  | none => s.setFault
  | some q =>
      match q.ring with
      | none => s.setFault
      | some r =>
          if q.refs - 1 = 0 then
            later { s with dirs := s.dirs.erase d } (q.batches.flatten.map .closeFile)
          else
            s.setDir d
              { q with ring := r.closeEp side.asReader side.asWriter, refs := q.refs - 1 }

/-- `unix_put`: with the last reference the name is dropped, and the connections are closed. -/
def unixPut (s : Unix) (x : Nat) : Unix :=
  match s.socks.lookup x with
  | none => s.setFault
  | some k =>
      if k.refs - 1 = 0 then
        later { s with socks := s.socks.erase x, bound := s.bound.filter fun b => b.2 ≠ x }
          (k.state.conns.flatMap UnixConn.close)
      else s.setSock x { k with refs := k.refs - 1 }

def usockDup (s : Unix) (x : Nat) : Unix :=
  match s.socks.lookup x with
  | none => s.setFault
  | some k =>
      let s' := s.setSock x { k with refs := k.refs + 1 }
      match k.state with
      | .connected conn => (s'.unixDirGet conn.rd .reader).unixDirGet conn.wr .writer
      | _ => s'

def fileDup (s : Unix) : File → Unix
  | .sock x => s.usockDup x
  | .other o =>
      if s.others o = 0 then s.setFault
      else s.setOther o (s.others o + 1)

def fileClose (s : Unix) : File → Unix
  | .sock x => s.unixPut x
  | .other o =>
      if s.others o = 0 then s.setFault
      else s.setOther o (s.others o - 1)

def doTask (s : Unix) : Task → Unix
  | .closeFile f => s.fileClose f
  | .putDir d side => s.unixDirPut d side

def runHook (s : Unix) : Hook File → Unix
  | .dup f => s.fileDup f
  | .close f => s.later [.closeFile f]

def apply (s : Unix) (r : Tables File × List (Hook File)) : Unix :=
  r.2.foldl runHook { s with tables := r.1 }

/-! ## Calls -/

def unixSocketCreate (s : Unix) (p x : Nat) (kmalloc slots : Bool) : Unix × Except Errno Nat :=
  if !kmalloc then (s, .error .enomem)
  else
    match fdTableInstall s.tables p slots (.sock x) with
    | none => (s, .error .emfile)
    | some (T, fd) => ({ s with tables := T }.setSock x ⟨.unbound, 1⟩, .ok fd)

def unixBind (s : Unix) (x : Nat) (name : List UInt8) : Unix × Except Errno Unit :=
  match s.socks.lookup x with
  | none => (s.setFault, .error .efault)
  | some k =>
      if k.state ≠ .unbound then (s, .error .einval)
      else if s.bound.any fun b => b.1 = name then (s, .error .eaddrinuse)
      else if s.bound.length ≥ unixMaxBound then (s, .error .enospc)
      else ({ s with bound := (name, x) :: s.bound }.setSock x { k with state := .bound }, .ok ())

def unixListen (s : Unix) (x : Nat) (backlog : Int) : Unix × Except Errno Unit :=
  let blMax := (max 1 (min backlog unixBacklogMax)).toNat
  match s.socks.lookup x with
  | none => (s.setFault, .error .efault)
  | some k =>
      match k.state with
      | .bound => (s.setSock x { k with state := .listening [] blMax }, .ok ())
      | .listening conns _ => (s.setSock x { k with state := .listening conns blMax }, .ok ())
      | _ => (s, .error .einval)

def unixDirAlloc : UnixDir := ⟨some Pipe.initEnds, [], 2⟩

/-- `unix_connect` once the listener `srv` is found. The reference on it that is held during the
call is dropped again in the same step. -/
def unixConnectTo (s : Unix) (x srv a b : Nat) (k : Sock) (kmalloc : Bool) :
    Unix × Except Errno Unit :=
  match s.socks.lookup srv with
  | none => (s.setFault, .error .efault)
  | some l =>
      match l.state with
      | .listening backlog blMax =>
          if !kmalloc then (s, .error .enomem)
          else if backlog.length ≥ blMax then (s, .error .econnrefused)
          else
            -- The server reads `a` and writes `b`, the client reads `b` and writes `a`.
            let backlog' := backlog ++ [⟨a, b⟩]
            let s' := (s.setDir a unixDirAlloc).setDir b unixDirAlloc
            let s'' := s'.setSock srv { l with state := .listening backlog' blMax }
            (s''.setSock x { k with state := .connected ⟨b, a⟩ }, .ok ())
      | _ => (s, .error .econnrefused)

def unixConnect (s : Unix) (x : Nat) (name : List UInt8) (a b : Nat) (kmalloc : Bool) :
    Unix × Except Errno Unit :=
  match s.socks.lookup x with
  | none => (s.setFault, .error .efault)
  | some k =>
      match k.state with
      | .connected _ => (s, .error .eisconn)
      | .listening _ _ => (s, .error .einval)
      | _ =>
          match s.bound.find? fun e => e.1 = name with
          | none => (s, .error .econnrefused)
          | some e => s.unixConnectTo x e.2 a b k kmalloc

/-- `unix_accept4`, from one taking of the lock to the next; `y` is what the allocation of the
socket returns. -/
def unixAccept4 (s : Unix) (p x y : Nat) (nonblock kmalloc slots : Bool) : Unix × Pass Nat :=
  match s.socks.lookup x with
  | none => (s.setFault, .done (.error .efault))
  | some l =>
      match l.state with
      | .listening [] _ => (s, if nonblock then .done (.error .eagain) else .sleep 0)
      | .listening (c :: backlog) blMax =>
          let s' := s.setSock x { l with state := .listening backlog blMax }
          if !kmalloc then (s'.later c.close, .done (.error .enomem))
          else
            match fdTableInstall s.tables p slots (.sock y) with
            | none => (s'.later c.close, .done (.error .emfile))
            | some (T, fd) =>
                ({ s' with tables := T }.setSock y ⟨.connected c, 1⟩, .done (.ok fd))
      | _ => (s, .done (.error .einval))

def connOf (s : Unix) (x : Nat) : Option UnixConn :=
  match s.socks.lookup x with
  | some ⟨.connected conn, _⟩ => some conn
  | _ => none

def usockRead (s : Unix) (x : Nat) (nonblock : Bool) (len : Nat) : Unix × Pass (List UInt8) :=
  match s.connOf x with
  | none => (s, .done (.error .enotconn))
  | some conn =>
      match s.dirs.lookup conn.rd with
      | some ⟨some r, batches, refs⟩ =>
          let (r', pass) := r.readEp nonblock len
          (s.setDir conn.rd ⟨some r', batches, refs⟩, pass)
      | _ => (s.setFault, .done (.error .efault))

def usockWrite (s : Unix) (x : Nat) (nonblock : Bool) (written : Nat) (rest : List UInt8) :
    Unix × Pass Nat :=
  match s.connOf x with
  | none => (s, .done (.error .enotconn))
  | some conn =>
      match s.dirs.lookup conn.wr with
      | some ⟨some r, batches, refs⟩ =>
          let (r', pass) := r.writeEp nonblock written rest
          (s.setDir conn.wr ⟨some r', batches, refs⟩, pass)
      | _ => (s.setFault, .done (.error .efault))

def namedFiles (t : FdTable File) : List Nat → List File × Bool
  | [] => ([], true)
  | fd :: fds =>
      match t.lookup fd with
      | none => ([], false)
      | some f => let r := namedFiles t fds; (f :: r.1, r.2)

/-- `unix_scm_send`, for the descriptors `fds` of process `p`. -/
def unixScmSend (s : Unix) (p x : Nat) (fds : List Nat) (kmalloc : Bool) :
    Unix × Except Errno Unit :=
  match s.connOf x with
  | none => (s, .error .enotconn)
  | some conn =>
      if fds = [] then (s, .ok ())
      else if fds.length > scmMaxFds then (s, .error .einval)
      else if !kmalloc then (s, .error .enomem)
      else
        let (fs, all) := namedFiles (tableOf s.tables p) fds
        let s' := fs.foldl fileDup s
        if !all then (s'.later (fs.map .closeFile), .error .ebadf)
        else
          match s'.dirs.lookup conn.wr with
          | none => (s'.setFault, .error .efault)
          | some q => (s'.setDir conn.wr { q with batches := q.batches ++ [fs] }, .ok ())

/-- Gives descriptors to the first `slots` files as long as there are free ones; the others are
returned. -/
def installFiles (T : Tables File) (p : Nat) : Nat → List File → Tables File × List File
  | _, [] => (T, [])
  | 0, fs => (T, fs)
  | slots + 1, f :: fs =>
      match fdTableInstall T p true f with
      | none => (T, f :: fs)
      | some (T', _) => installFiles T' p slots fs

/-- `unix_scm_recv`; `room` descriptors fit into the control buffer. -/
def unixScmRecv (s : Unix) (p x room slots : Nat) : Unix × Except Errno Unit :=
  match s.connOf x with
  | none => (s, .ok ())
  | some conn =>
      match s.dirs.lookup conn.rd with
      | none => (s.setFault, .error .efault)
      | some q =>
          match q.batches with
          | [] => (s, .ok ())
          | fs :: batches =>
              let s' := s.setDir conn.rd { q with batches := batches }
              if room < fs.length then (s'.later (fs.map .closeFile), .error .emsgsize)
              else
                let (T, rest) := installFiles s.tables p slots fs
                (later { s' with tables := T } (rest.map .closeFile), .ok ())

end Unix

/-! ## Runs -/

inductive UnixAct where
  | socket (p x : Nat) (kmalloc slots : Bool)
  | bind (p fd : Nat) (name : List UInt8)
  | listen (p fd : Nat) (backlog : Int)
  | connect (p fd : Nat) (name : List UInt8) (a b : Nat) (kmalloc : Bool)
  | accept (p fd y : Nat) (nonblock kmalloc slots : Bool)
  | read (p fd : Nat) (nonblock : Bool) (len : Nat)
  | write (p fd : Nat) (nonblock : Bool) (written : Nat) (rest : List UInt8)
  | sendFds (p fd : Nat) (fds : List Nat) (kmalloc : Bool)
  | recvFds (p fd room slots : Nat)
  | openOther (p o : Nat) (slots : Bool)
  | dup (p oldfd start : Nat) (slots : Bool)
  | dup2 (p oldfd newfd : Nat) (slots : Bool)
  | fork (p c : Nat)
  | close (p fd : Nat)
  | exit (p : Nat)
  | work (t : Task)
  deriving DecidableEq, Repr

def sockAt (s : Unix) (p fd : Nat) : Option Nat :=
  match (tableOf s.tables p).lookup fd with
  | some (.sock x) => some x
  | _ => none

open Unix in
def unixStep (s : Unix) : UnixAct → Option Unix
  | .socket p x kmalloc slots =>
      if s.socks.lookup x = none then some (s.unixSocketCreate p x kmalloc slots).1 else none
  | .bind p fd name => (sockAt s p fd).map fun x => (s.unixBind x name).1
  | .listen p fd backlog => (sockAt s p fd).map fun x => (s.unixListen x backlog).1
  | .connect p fd name a b kmalloc =>
      if a ≠ b ∧ s.dirs.lookup a = none ∧ s.dirs.lookup b = none then
        (sockAt s p fd).map fun x => (s.unixConnect x name a b kmalloc).1
      else none
  | .accept p fd y nonblock kmalloc slots =>
      if s.socks.lookup y = none then
        (sockAt s p fd).map fun x => (s.unixAccept4 p x y nonblock kmalloc slots).1
      else none
  | .read p fd nonblock len => (sockAt s p fd).map fun x => (s.usockRead x nonblock len).1
  | .write p fd nonblock written rest =>
      (sockAt s p fd).map fun x => (s.usockWrite x nonblock written rest).1
  | .sendFds p fd fds kmalloc => (sockAt s p fd).map fun x => (s.unixScmSend p x fds kmalloc).1
  | .recvFds p fd room slots => (sockAt s p fd).map fun x => (s.unixScmRecv p x room slots).1
  | .openOther p o slots =>
      if s.others o = 0 then
        some (match fdTableInstall s.tables p slots (.other o) with
          | none => s
          | some (T, _) => { s with tables := T }.setOther o 1)
      else none
  | .dup p oldfd start slots =>
      let r := dupFd s.tables p oldfd start slots
      some (s.apply (r.1, r.2.1))
  | .dup2 p oldfd newfd slots =>
      let r := fdTableDup2 s.tables p oldfd newfd slots
      some (s.apply (r.1, r.2.1))
  | .fork p c =>
      if s.tables.lookup c = none then some (s.apply (fdTableDup s.tables p c)) else none
  | .close p fd => some (s.apply (fdTableClose s.tables p fd))
  | .exit p => some (s.apply (fdTableFree s.tables p))
  | .work t => if t ∈ s.todo then some ({ s with todo := s.todo.erase t }.doTask t) else none

structure UnixInit (s : Unix) : Prop where
  socks : s.socks = ∅
  dirs : s.dirs = ∅
  bound : s.bound = []
  todo : s.todo = []
  fault : s.fault = false
  tables : ∀ x, descriptors s.tables (.sock x) = 0
  others : ∀ o, s.others o = descriptors s.tables (.other o)

def unixSystem : System Unix UnixAct where
  init := UnixInit
  step := unixStep

def Apart (s : Unix) : File → Prop
  | .sock x => s.connOf x = none
  | .other _ => True

/-- No descriptor of a connected socket is duplicated or sent. -/
def Unshared (s : Unix) : UnixAct → Prop
  | .dup p oldfd _ _ => ∀ f ∈ (tableOf s.tables p).lookup oldfd, Apart s f
  | .dup2 p oldfd newfd _ => oldfd ≠ newfd → ∀ f ∈ (tableOf s.tables p).lookup oldfd, Apart s f
  | .fork p _ => ∀ f ∈ (tableOf s.tables p).values, Apart s f
  | .sendFds p _ fds _ => ∀ fd ∈ fds, ∀ f ∈ (tableOf s.tables p).lookup fd, Apart s f
  | _ => True

end NeoKernel.UnixSock
