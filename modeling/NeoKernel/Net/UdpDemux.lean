import Mathlib.Logic.Function.Basic
import NeoKernel.Lib.Trans

/-!
# Which socket an arriving datagram is queued on (kernel/net/socket.c)

Every socket with a local port is on `bound_list`, whatever its type.
-/
namespace NeoKernel.Udp
open Function List Option

inductive SockType where
  | stream
  | dgram
  deriving DecidableEq

structure Dgram where
  srcIp : BitVec 32
  srcPort : BitVec 16
  data : List UInt8
  deriving DecidableEq

structure Socket where
  type : SockType
  localIp : BitVec 32
  localPort : BitVec 16
  peer : Option (BitVec 32 × BitVec 16)
  rx : List Dgram
  rxBytes : Nat
  rxDropped : Nat

structure Sockets (ι : Type*) where
  sock : ι → Socket
  boundList : List ι

def sockRcvbuf : Nat := 65536

section Demux

variable {ι : Type*}

/-- The loop of `lookup_bound` over the rest of the list, with its `wildcard`. -/
def lookupFrom (sock : ι → Socket) (dst : BitVec 32) (dport : BitVec 16) :
    List ι → Option ι → Option ι
  | [], wildcard => wildcard
  | i :: rest, wildcard =>
      if (sock i).localPort ≠ dport then lookupFrom sock dst dport rest wildcard
      else if (sock i).localIp = dst then some i
      else lookupFrom sock dst dport rest (if (sock i).localIp = 0#32 then some i else wildcard)

def lookupBound (s : Sockets ι) (dst : BitVec 32) (dport : BitVec 16) : Option ι :=
  lookupFrom s.sock dst dport s.boundList none

variable [DecidableEq ι]

def Sockets.set (s : Sockets ι) (i : ι) (x : Socket) : Sockets ι :=
  { s with sock := update s.sock i x }

/-- `none` is `-ENOENT`; `alloc` is whether `kmalloc` has room for the datagram. -/
def netUdpDeliver (s : Sockets ι) (dst : BitVec 32) (dport : BitVec 16) (d : Dgram) (alloc : Bool) :
    Option (Sockets ι) :=
  (lookupBound s dst dport).map fun i =>
    let x := s.sock i
    if x.peer.any (· ≠ (d.srcIp, d.srcPort)) then s
    else if sockRcvbuf < x.rxBytes + d.data.length || !alloc then
      s.set i { x with rxDropped := x.rxDropped + 1 }
    else s.set i { x with rx := x.rx ++ [d], rxBytes := x.rxBytes + d.data.length }

/-- A socket on the list that is bound to the port, whatever its address. -/
def OnPort (s : Sockets ι) (dport : BitVec 16) (i : ι) : Prop :=
  i ∈ s.boundList ∧ (s.sock i).localPort = dport

/-- A datagram socket bound to the port and the address, or to no address while no datagram
socket is bound to that one. -/
def MostSpecific (s : Sockets ι) (dst : BitVec 32) (dport : BitVec 16) (i : ι) : Prop :=
  OnPort s dport i ∧ (s.sock i).type = .dgram ∧
    ((s.sock i).localIp = dst ∨ (s.sock i).localIp = 0#32 ∧
      ∀ j, OnPort s dport j → (s.sock j).type = .dgram → (s.sock j).localIp ≠ dst)

/-- The socket that decides about a datagram: the first on the list with its address, and if there
is none the last with no address. -/
def Decides (s : Sockets ι) (dst : BitVec 32) (dport : BitVec 16) (i : ι) : Prop :=
  let first := s.boundList.find? fun i => (s.sock i).localPort = dport ∧ (s.sock i).localIp = dst
  first = some i ∨ first = none ∧ (s.boundList.reverse.find? fun i =>
    (s.sock i).localPort = dport ∧ (s.sock i).localIp = 0#32) = some i

instance (s : Sockets ι) (dst : BitVec 32) (dport : BitVec 16) (i : ι) :
    Decidable (Decides s dst dport i) := inferInstanceAs (Decidable (_ ∨ _))

variable {s : Sockets ι} {dst : BitVec 32} {dport : BitVec 16} {i : ι}

section

omit [DecidableEq ι]

/-- The one pass makes the two-pass decision: the first socket with the address, and if there is
none the last one with no address. -/
theorem lookupFrom_eq (sock : ι → Socket) (l : List ι) (wildcard : Option ι) :
    lookupFrom sock dst dport l wildcard =
      (l.find? fun i => (sock i).localPort = dport ∧ (sock i).localIp = dst).or
        ((l.reverse.find? fun i => (sock i).localPort = dport ∧
          (sock i).localIp = 0#32).or wildcard) := by
  fun_induction lookupFrom sock dst dport l wildcard with
  | case1 wildcard => rfl
  | case2 i rest wildcard hport ih => simp [ih, hport]
  | case3 i rest wildcard hport hip => simp [hip, not_not.1 hport]
  | case4 i rest wildcard hport hip ih =>
      have hlast : (if (sock i).localIp = 0#32 then some i else wildcard) = ([i].find? fun i =>
          (sock i).localPort = dport ∧ (sock i).localIp = 0#32).or wildcard := by
        by_cases hany : (sock i).localIp = 0#32 <;> simp [hany, not_not.1 hport]
      rw [ih, reverse_cons, find?_append, Option.or_assoc, ← hlast,
        find?_cons_of_neg (by simp [hip])]

theorem lookupBound_iff : lookupBound s dst dport = some i ↔ Decides s dst dport i := by
  rw [lookupBound, lookupFrom_eq, or_none, or_eq_some_iff]
  rfl

theorem Decides.cases (h : Decides s dst dport i) :
    OnPort s dport i ∧ ((s.sock i).localIp = dst ∨ (s.sock i).localIp = 0#32 ∧
      ∀ j, OnPort s dport j → (s.sock j).localIp ≠ dst) := by
  rcases h with h | ⟨hnone, h⟩
  · have hi := find?_some h
    obtain ⟨hport, hip⟩ := of_decide_eq_true hi
    exact ⟨⟨mem_of_find?_eq_some h, hport⟩, .inl hip⟩
  · have hi := find?_some h
    obtain ⟨hport, hip⟩ := of_decide_eq_true hi
    refine ⟨⟨mem_reverse.1 (mem_of_find?_eq_some h), hport⟩, .inr ⟨hip, ?_⟩⟩
    rintro j ⟨hj, hjport⟩ hjip
    simpa [hjport, hjip] using find?_eq_none.1 hnone j hj

theorem lookupBound_none (h : lookupBound s dst dport = none) (hi : OnPort s dport i) :
    (s.sock i).localIp ≠ dst ∧ (s.sock i).localIp ≠ 0#32 := by
  rw [lookupBound, lookupFrom_eq, or_none, or_eq_none_iff] at h
  constructor
  · simpa [hi.2] using find?_eq_none.1 h.1 i hi.1
  · simpa [hi.2] using find?_eq_none.1 h.2 i (mem_reverse.2 hi.1)

end

end Demux

def loopback : BitVec 32 := 0x0100007f#32

/-- A socket on port 5000. -/
def onPort (type : SockType) (ip : BitVec 32) : Socket := ⟨type, ip, 0x8813#16, none, [], 0, 0⟩

/-- A stream socket on another address, a datagram socket on the loopback address and one on no
address. -/
def threeBound : Sockets (Fin 3) where
  sock
    | 0 => onPort .stream 7
    | 1 => onPort .dgram loopback
    | 2 => onPort .dgram 0
  boundList := [0, 1, 2]

end NeoKernel.Udp
