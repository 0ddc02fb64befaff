import NeoKernel.Ipc.Eventfd
import NeoKernel.Ipc.Pipe
import NeoKernel.Net.Segment
import NeoKernel.Net.UdpDemux
import NeoKernel.Vm.Uaccess

/-!
# Reads through the staging buffer

`read_to_user` of `syscall/sys_file.c` over any object of the file layer, and the objects whose
read can sleep. Between two turns of the reader the other threads change the object as they like.
-/
namespace NeoKernel.Ipc
open Lib
open Vm (stageMax)

/-- An object's read, from one taking of its lock to the return or the next sleep. Asked for no
more than the staging buffer, it delivers no more than that, and it sleeps empty-handed, in
a blocking read, and while it is `idle`: it has no data, nor an end or an error to report. -/
structure Readable (σ : Type) where
  read : σ → Bool → Nat → σ × Pass (List UInt8)
  idle : σ → Bool
  fits : ∀ {o nonblock len data}, len ≤ stageMax →
    (read o nonblock len).2 = .done (.ok data) → data.length ≤ len
  sleeps : ∀ {o nonblock len n}, len ≤ stageMax → (read o nonblock len).2 = .sleep n →
    n = 0 ∧ nonblock = false ∧ idle o = true

inductive Progress where
  | asking
  /-- `n` bytes are in the object's hands -/
  | asleep (n : Nat)
  | returned (r : Except Errno Nat)
  deriving DecidableEq

structure Reader (σ : Type) where
  obj : σ
  /-- what has reached user memory: `total` is its length -/
  delivered : List UInt8
  remaining : Nat
  progress : Progress

section Loop

variable {σ : Type}

def Reader.returns (s : Reader σ) (err : Errno) : Reader σ :=
  let r := if s.delivered = [] then .error err else .ok s.delivered.length
  { s with progress := .returned r }

/-- The reader runs until its next sleep, its next call of `file_read` or its return;
`missed` is what `copy_to_user` leaves of the chunk. -/
def readToUser (f : Readable σ) (nonblock : Bool) (s : Reader σ) (missed : Nat) : Reader σ :=
  if s.remaining = 0 then { s with progress := .returned (.ok s.delivered.length) }
  else
    let chunk := min s.remaining stageMax
    let (o, pass) := f.read s.obj nonblock chunk
    let s := { s with obj := o }
    match pass with
    | .sleep n => { s with progress := .asleep n }
    | .done (.error e) => s.returns e
    | .done (.ok data) =>
        if data = [] then { s with progress := .returned (.ok s.delivered.length) }
        else if 0 < missed then
          { s with delivered := s.delivered ++ data.take (data.length - missed) }.returns .efault
        else
          let s := { s with
            delivered := s.delivered ++ data
            remaining := s.remaining - data.length }
          { s with progress :=
              if data.length < chunk then .returned (.ok s.delivered.length) else .asking }

inductive ReadAct (σ : Type) where
  | turn (missed : Nat)
  /-- a signal ends the sleep -/
  | interrupted
  | others (o : σ)

def readSystem (f : Readable σ) (nonblock : Bool) (len : Nat) :
    System (Reader σ) (ReadAct σ) where
  init s := s.delivered = [] ∧ s.remaining = len ∧ s.progress = .asking
  step s
    | .others o => some { s with obj := o }
    | .turn missed =>
        match s.progress with
        | .returned _ => none
        | .asking | .asleep _ => some (readToUser f nonblock s missed)
    | .interrupted =>
        match s.progress with
        | .asleep _ => some (s.returns .eintr)
        | .asking | .returned _ => none

/-- When a blocking read asks the object again, after a full chunk, the object has data, an end
or an error for it. -/
def Stocked (f : Readable σ) (nonblock : Bool) (s : Reader σ) : ReadAct σ → Prop
  | .turn _ => s.progress = .asking → s.delivered ≠ [] → s.remaining ≠ 0 → nonblock = false →
      f.idle s.obj = false
  | .interrupted | .others _ => True

instance (f : Readable σ) (nonblock : Bool) (s : Reader σ) :
    (a : ReadAct σ) → Decidable (Stocked f nonblock s a)
  | .turn _ => inferInstanceAs (Decidable (_ → _))
  | .interrupted | .others _ => isTrue trivial

/-- The object never fills the staging buffer at once. -/
def Readable.Ragged (f : Readable σ) : Prop :=
  ∀ {o nonblock data}, (f.read o nonblock stageMax).2 = .done (.ok data) → data.length ≠ stageMax

/-- How a turn ends. -/
inductive Ends (f : Readable σ) (nonblock : Bool) (s s' : Reader σ) : Prop where
  | returns (r : Except Errno Nat) : s'.progress = .returned r → Ends f nonblock s s'
  | sleeps (n : Nat) : s.remaining ≠ 0 →
      (f.read s.obj nonblock (min s.remaining stageMax)).2 = .sleep n →
      s'.progress = .asleep n → s'.delivered = s.delivered → s'.remaining = s.remaining →
      Ends f nonblock s s'
  | full (data : List UInt8) : s.remaining ≠ 0 →
      (f.read s.obj nonblock (min s.remaining stageMax)).2 = .done (.ok data) →
      data.length = min s.remaining stageMax → s'.progress = .asking →
      s'.remaining = s.remaining - data.length → Ends f nonblock s s'

variable {f : Readable σ} {nonblock : Bool} {len : Nat} {s s' : Reader σ}

theorem readToUser_ends (missed : Nat) : Ends f nonblock s (readToUser f nonblock s missed) := by
  unfold readToUser
  split
  · exact .returns _ rfl
  · next hrem =>
      dsimp only
      cases hread : (f.read s.obj nonblock (min s.remaining stageMax)).2 with
      | sleep n => exact .sleeps n hrem hread rfl rfl rfl
      | done r =>
          cases r with
          | error e => exact .returns _ rfl
          | ok data =>
              have hfits := f.fits (min_le_right _ _) hread
              dsimp only
              split_ifs with hnil hmissed hshort
              · exact .returns _ rfl
              · exact .returns _ rfl
              · exact .returns _ rfl
              · exact .full data hrem hread (hfits.antisymm (not_lt.1 hshort)) rfl rfl

/-- A step of the reader comes from a state that has not returned, and is a turn or the end of
a sleep. -/
theorem readStep_cases {a : ReadAct σ} (h : (readSystem f nonblock len).step s a = some s') :
    (∃ o, a = .others o ∧ s' = { s with obj := o }) ∨
    (∃ missed, a = .turn missed ∧ (∀ r, s.progress ≠ .returned r) ∧ Ends f nonblock s s') ∨
    ∃ r, s'.progress = .returned r := by
  cases a with
  | others o => exact .inl ⟨o, rfl, (Option.some.inj h).symm⟩
  | turn missed =>
      cases hp : s.progress with
      | returned r => simp [readSystem, hp] at h
      | asking | asleep n =>
          simp only [readSystem, hp, Option.some.injEq] at h
          exact .inr (.inl ⟨missed, rfl, by simp, h ▸ readToUser_ends missed⟩)
  | interrupted =>
      cases hp : s.progress with
      | asking | returned r => simp [readSystem, hp] at h
      | asleep n =>
          simp only [readSystem, hp, Option.some.injEq] at h
          cases h
          exact .inr (.inr ⟨_, rfl⟩)

/-- A reader that sleeps has nothing yet. -/
theorem prompt_reach (hr : (readSystem f nonblock len).Reach (Stocked f nonblock) s) :
    ∀ n, s.progress = .asleep n → s.delivered = [] ∧ n = 0 := by
  refine hr.invariant (fun s => ∀ n, s.progress = .asleep n → s.delivered = [] ∧ n = 0) ?_ ?_
  · rintro s ⟨-, -, hp⟩ n hn
    cases hp.symm.trans hn
  · intro s a s' h hok hs n hn
    obtain ⟨o, rfl, rfl⟩ | ⟨missed, rfl, hlive, hends⟩ | ⟨r, hr'⟩ := readStep_cases hs
    · exact h n hn
    · cases hends with
      | returns r hr' => cases hr'.symm.trans hn
      | full _ _ _ _ hask => cases hask.symm.trans hn
      | sleeps m hrem hread hasleep hd _ =>
          obtain ⟨rfl, hblock, hidle⟩ := f.sleeps (min_le_right _ _) hread
          cases hasleep.symm.trans hn
          refine ⟨hd.trans ?_, rfl⟩
          -- it slept without a byte before, or the object has something to return
          cases hprog : s.progress with
          | asleep m => exact (h m hprog).1
          | returned r => exact absurd hprog (hlive r)
          | asking =>
              by_contra hne
              cases (hok hprog hne hrem hblock).symm.trans hidle
    · cases hr'.symm.trans hn

/-- A read of one staging buffer, or of an object that never fills it, does not ask again. -/
theorem stocked_reach (hshort : len ≤ stageMax ∨ f.Ragged)
    (hr : (readSystem f nonblock len).Reach (fun _ _ => True) s) (a : ReadAct σ) :
    Stocked f nonblock s a := by
  have hinv : (∃ r, s.progress = .returned r) ∨
      s.remaining ≤ len ∧ (s.progress = .asking → s.delivered = [] ∨ s.remaining = 0) := by
    refine hr.invariant (fun s => (∃ r, s.progress = .returned r) ∨
      s.remaining ≤ len ∧ (s.progress = .asking → s.delivered = [] ∨ s.remaining = 0)) ?_ ?_
    · rintro s ⟨hd, hrem, -⟩
      exact .inr ⟨hrem.le, fun _ => .inl hd⟩
    · rintro s a s' h - hs
      obtain ⟨o, rfl, rfl⟩ | ⟨missed, rfl, hlive, hends⟩ | hret := readStep_cases hs
      · exact h
      · obtain ⟨hle, -⟩ := h.resolve_left fun ⟨r, hr'⟩ => hlive r hr'
        cases hends with
        | returns r hr' => exact .inl ⟨r, hr'⟩
        | sleeps n _ _ hasleep _ hrem =>
            exact .inr ⟨hrem ▸ hle, fun hask => nomatch hasleep.symm.trans hask⟩
        | full data _ hread hfull _ hrem =>
            have hall : s.remaining ≤ stageMax := by
              by_contra hlt
              have hchunk : min s.remaining stageMax = stageMax := by omega
              rw [hchunk] at hread hfull
              rcases hshort with hlen | hragged
              · omega
              · exact hragged hread hfull
            exact .inr ⟨by omega, fun _ => .inr (by omega)⟩
      · exact .inl hret
  cases a with
  | interrupted | others _ => trivial
  | turn missed =>
      intro hask hne hrem
      rcases hinv with ⟨r, hr'⟩ | ⟨-, h⟩
      · cases hr'.symm.trans hask
      · exact ((h hask).elim hne hrem).elim

end Loop

/-! ## Pipes, socketpairs and local sockets (pipe_read_ep) -/

def pipeReadable : Readable Pipe where
  read := Pipe.readEp
  idle p := p.ring.len == 0 && p.writersOpen != 0
  fits := by
    intro p nonblock len data _ h
    simp only [Pipe.readEp] at h
    split_ifs at h <;> cases h
    · exact Nat.zero_le _
    · rw [RingBuf.length_front]
      exact (Nat.min_le_left _ _).trans (Nat.mod_le _ _)
    · exact Nat.zero_le _
  sleeps := by
    intro p nonblock len n _ h
    simp only [Pipe.readEp] at h
    split_ifs at h with _ hdata hwriters hblock
    cases h
    simp_all

/-! ## Internet sockets (sock_read of net/socket.c) -/

section Sock

variable {ι : Type}

def streamRecv (t : Net.Tcb ι) (nonblock : Bool) (len : Nat) : Net.Tcb ι × Pass (List UInt8) :=
  let (t, r) := t.tcpRecv (len % 2 ^ 32) false
  match r with
  | .ok data => (t, .done (.ok data))
  | .error e =>
      if e ≠ .eagain then (t, .done (.error e))
      else if nonblock then (t, .done (.error .eagain))
      else (t, .sleep 0)

def recvOne (s : Udp.Socket) (nonblock : Bool) (len : Nat) : Udp.Socket × Pass (List UInt8) :=
  match s.rx with
  | [] => if nonblock then (s, .done (.error .eagain)) else (s, .sleep 0)
  | d :: rest =>
      let give := if d.data.length < len then d.data.length else len % 2 ^ 32
      ({ s with rx := rest, rxBytes := s.rxBytes - d.data.length }, .done (.ok (d.data.take give)))

structure Sock (ι : Type) where
  sock : Udp.Socket
  bound : Bool
  tcb : Option (Net.Tcb ι)

def sockRead (s : Sock ι) (nonblock : Bool) (len : Nat) : Sock ι × Pass (List UInt8) :=
  if s.sock.type = .stream then
    match s.tcb with
    | none => (s, .done (.error .enotconn))
    | some t =>
        let (t, pass) := streamRecv t nonblock len
        ({ s with tcb := some t }, pass)
  else if s.bound = false then (s, .done (.error .enotconn))
  else
    let (u, pass) := recvOne s.sock nonblock len
    ({ s with sock := u }, pass)

/-- Neither data nor a reset nor the end of the stream. -/
def streamIdle (t : Net.Tcb ι) : Bool :=
  t.rcv.len == 0 && !t.reset && !(t.finRcvd || t.shutRd || t.state == .closed)

variable {t : Net.Tcb ι} {nonblock : Bool} {len : Nat}

theorem length_tcpRecv_le {data : List UInt8} (h : (t.tcpRecv len false).2 = .ok data) :
    data.length ≤ len := by
  have hfront : (t.rcv.front Net.tcpRcvbuf (min len t.rcv.len)).length ≤ len := by
    rw [RingBuf.length_front]
    exact Nat.min_le_left _ _
  unfold Net.Tcb.tcpRecv at h
  split_ifs at h <;> cases h
  · exact hfront
  · exact hfront
  · exact Nat.zero_le _

theorem streamIdle_of_tcpRecv (h : (t.tcpRecv len false).2 = .error .eagain) :
    streamIdle t = true := by
  unfold Net.Tcb.tcpRecv at h
  split_ifs at h with hdata hpeek hreset hend
  all_goals simp_all [streamIdle]

theorem length_streamRecv_le {data : List UInt8}
    (h : (streamRecv t nonblock len).2 = .done (.ok data)) : data.length ≤ len := by
  unfold streamRecv at h
  cases hr : (t.tcpRecv (len % 2 ^ 32) false).2 with
  | ok out =>
      simp only [hr, Pass.done.injEq, Except.ok.injEq] at h
      exact (length_tcpRecv_le (h ▸ hr)).trans (Nat.mod_le _ _)
  | error e =>
      simp only [hr] at h
      split_ifs at h <;> cases h

theorem streamRecv_sleeps {n : Nat} (h : (streamRecv t nonblock len).2 = .sleep n) :
    n = 0 ∧ nonblock = false ∧ streamIdle t = true := by
  unfold streamRecv at h
  cases hr : (t.tcpRecv (len % 2 ^ 32) false).2 with
  | ok out =>
      simp only [hr] at h
      cases h
  | error e =>
      simp only [hr] at h
      split_ifs at h with hagain hblock
      cases h
      rw [not_not] at hagain
      exact ⟨rfl, by simpa using hblock, streamIdle_of_tcpRecv (hagain ▸ hr)⟩

variable {s : Udp.Socket}

theorem length_recvOne_le {data : List UInt8}
    (h : (recvOne s nonblock len).2 = .done (.ok data)) : data.length ≤ len := by
  unfold recvOne at h
  split at h
  · split_ifs at h
    cases h
  · cases h
    rw [List.length_take]
    have := Nat.mod_le len (2 ^ 32)
    split_ifs <;> omega

theorem recvOne_sleeps {n : Nat} (h : (recvOne s nonblock len).2 = .sleep n) :
    n = 0 ∧ nonblock = false ∧ s.rx.isEmpty = true := by
  unfold recvOne at h
  split at h
  · next hrx =>
      split_ifs at h with hblock
      cases h
      exact ⟨rfl, by simpa using hblock, by rw [hrx]; rfl⟩
  · cases h

def sockReadable : Readable (Sock ι) where
  read := sockRead
  idle s := if s.sock.type = .stream then s.tcb.any streamIdle else s.bound && s.sock.rx.isEmpty
  fits := by
    intro s nonblock len data _ h
    unfold sockRead at h
    split_ifs at h with hstream hbound
    · cases htcb : s.tcb with
      | none => simp [htcb] at h
      | some t =>
          simp only [htcb] at h
          exact length_streamRecv_le h
    · cases h
    · exact length_recvOne_le h
  sleeps := by
    intro s nonblock len n _ h
    unfold sockRead at h
    split_ifs at h with hstream hbound
    · cases htcb : s.tcb with
      | none => simp [htcb] at h
      | some t =>
          simp only [htcb] at h
          obtain ⟨hn, hblock, hidle⟩ := streamRecv_sleeps h
          exact ⟨hn, hblock, by simpa [hstream, htcb] using hidle⟩
    · obtain ⟨hn, hblock, hempty⟩ := recvOne_sleeps h
      exact ⟨hn, hblock, by simpa [hstream, hbound] using hempty⟩

end Sock

/-! ## Terminals (tty/tty.c) and the masters of pseudoterminals (tty/pty.c) -/

def ttyBuf : Nat := 1024

structure Tty where
  ready : RingBuf UInt8
  icanon : Bool
  sawEof : Bool
  hungUp : Bool
  room : ready.len ≤ ttyBuf

/-- The copying loop: a canonical read stops after the end of a line. -/
def ttyCopy (icanon : Bool) : Nat → List UInt8 → List UInt8
  | 0, _ | _, [] => []
  | n + 1, c :: rest => if icanon ∧ c = 10 then [c] else c :: ttyCopy icanon n rest

def ttyObjRead (t : Tty) (nonblock : Bool) (len : Nat) : Tty × Pass (List UInt8) :=
  if len % 2 ^ 32 = 0 then (t, .done (.ok []))
  else if 0 < t.ready.len then
    let out := ttyCopy t.icanon (len % 2 ^ 32) (t.ready.contents ttyBuf)
    ({ t with
        ready := t.ready.pop ttyBuf out.length
        room := (Nat.sub_le _ _).trans t.room }, .done (.ok out))
  else if t.sawEof then ({ t with sawEof := false }, .done (.ok []))
  else if t.hungUp then (t, .done (.ok []))
  else if nonblock then (t, .done (.error .eagain))
  else (t, .sleep 0)

theorem length_ttyCopy_le (icanon : Bool) (n : Nat) (l : List UInt8) :
    (ttyCopy icanon n l).length ≤ min n l.length := by
  induction n generalizing l with
  | zero => simp [ttyCopy]
  | succ n ih =>
      cases l with
      | nil => simp [ttyCopy]
      | cons c rest =>
          rw [ttyCopy]
          split
          · simp
          · have := ih rest
            simp only [List.length_cons]
            omega

theorem length_ttyObjRead_le {t : Tty} {nonblock : Bool} {len : Nat} {data : List UInt8}
    (h : (ttyObjRead t nonblock len).2 = .done (.ok data)) : data.length ≤ min len ttyBuf := by
  unfold ttyObjRead at h
  split_ifs at h with hlen hready heof hhung <;> cases h
  · exact Nat.zero_le _
  · have hcopy := length_ttyCopy_le t.icanon (len % 2 ^ 32) (t.ready.contents ttyBuf)
    rw [RingBuf.length_contents] at hcopy
    have := t.room
    have := Nat.mod_le len (2 ^ 32)
    omega
  · exact Nat.zero_le _
  · exact Nat.zero_le _

def ttyReadable : Readable Tty where
  read := ttyObjRead
  idle t := t.ready.len == 0 && !t.sawEof && !t.hungUp
  fits _ h := (length_ttyObjRead_le h).trans (min_le_left _ _)
  sleeps := by
    intro t nonblock len n _ h
    unfold ttyObjRead at h
    split_ifs at h with hlen hready heof hhung hblock
    cases h
    simp_all

theorem ttyReadable_ragged : ttyReadable.Ragged := by
  intro t nonblock data h
  have hle : data.length ≤ min stageMax ttyBuf := length_ttyObjRead_le h
  exact (hle.trans_lt (by decide)).ne

/-- The output queue of a terminal's master and whether its other end is open. -/
structure Ptm where
  outq : RingBuf UInt8
  slaveOpen : Bool
  room : outq.len ≤ ttyBuf

def ptmRead (t : Ptm) (nonblock : Bool) (len : Nat) : Ptm × Pass (List UInt8) :=
  if 0 < t.outq.len then
    let k := min len t.outq.len
    ({ t with
        outq := t.outq.pop ttyBuf k
        room := (Nat.sub_le _ _).trans t.room }, .done (.ok (t.outq.front ttyBuf k)))
  else if t.slaveOpen = false then (t, .done (.ok []))
  else if nonblock then (t, .done (.error .eagain))
  else (t, .sleep 0)

theorem length_ptmRead_le {t : Ptm} {nonblock : Bool} {len : Nat} {data : List UInt8}
    (h : (ptmRead t nonblock len).2 = .done (.ok data)) : data.length ≤ min len ttyBuf := by
  unfold ptmRead at h
  split_ifs at h with hout hopen <;> cases h
  · rw [RingBuf.length_front]
    exact min_le_min_left _ t.room
  · exact Nat.zero_le _

def ptmReadable : Readable Ptm where
  read := ptmRead
  idle t := t.outq.len == 0 && t.slaveOpen
  fits _ h := (length_ptmRead_le h).trans (min_le_left _ _)
  sleeps := by
    intro t nonblock len n _ h
    unfold ptmRead at h
    split_ifs at h with hout hopen hblock
    cases h
    simp_all

theorem ptmReadable_ragged : ptmReadable.Ragged := by
  intro t nonblock data h
  have hle : data.length ≤ min stageMax ttyBuf := length_ptmRead_le h
  exact (hle.trans_lt (by decide)).ne

/-! ## Queues of input events (drivers/input/input.c) and event counters (ipc/eventfd.c) -/

/-- The bytes of a `struct input_event`. -/
abbrev InputEvent := Vector UInt8 24

structure EventRing where
  ring : BitVec 32 → InputEvent
  head : BitVec 32
  tail : BitVec 32

def EventRing.empty (c : EventRing) : Bool := (c.head &&& 0xFF) == (c.tail &&& 0xFF)

/-- The copying loop of `evdev_client_read`, for at most `n` events. -/
def EventRing.copy : Nat → EventRing → List InputEvent × EventRing
  | 0, c => ([], c)
  | n + 1, c =>
      if c.empty then ([], c)
      else
        let (out, c') := EventRing.copy n { c with tail := c.tail + 1 }
        (c.ring (c.tail &&& 0xFF) :: out, c')

def evdevClientRead (c : EventRing) (nonblock : Bool) (len : Nat) :
    EventRing × Pass (List UInt8) :=
  if len < 24 then (c, .done (.error .einval))
  else
    let (out, c') := c.copy (len / 24 % 2 ^ 32)
    if out ≠ [] then (c', .done (.ok (out.flatMap Vector.toList)))
    else if nonblock then (c', .done (.error .eagain))
    else (c', .sleep 0)

theorem EventRing.length_copy_le (n : Nat) (c : EventRing) : (c.copy n).1.length ≤ n := by
  induction n generalizing c with
  | zero => exact Nat.zero_le _
  | succ n ih =>
      rw [copy]
      split
      · exact Nat.zero_le _
      · exact Nat.succ_le_succ (ih _)

theorem length_events (l : List InputEvent) : (l.flatMap Vector.toList).length = 24 * l.length := by
  induction l with
  | nil => rfl
  | cons e l ih =>
      rw [List.flatMap_cons, List.length_append, ih, Vector.length_toList, List.length_cons]
      omega

theorem length_evdevClientRead {c : EventRing} {nonblock : Bool} {len : Nat} {data : List UInt8}
    (h : (evdevClientRead c nonblock len).2 = .done (.ok data)) :
    ∃ k ≤ len / 24, data.length = 24 * k := by
  unfold evdevClientRead at h
  split at h
  · cases h
  · dsimp only at h
    split_ifs at h <;> cases h
    exact ⟨_, (EventRing.length_copy_le ..).trans (Nat.mod_le _ _), length_events _⟩

def evdevReadable : Readable EventRing where
  read := evdevClientRead
  idle := EventRing.empty
  fits := by
    intro c nonblock len data _ h
    obtain ⟨k, hk, hdata⟩ := length_evdevClientRead h
    omega
  sleeps := by
    intro c nonblock len n hlen h
    unfold evdevClientRead at h
    split at h
    · cases h
    · next hwhole =>
        dsimp only at h
        split_ifs at h with hout hblock
        cases h
        refine ⟨rfl, by simpa using hblock, ?_⟩
        have hlt : len / 24 < 2 ^ 32 := by
          have : stageMax < 2 ^ 32 := by decide
          omega
        obtain ⟨m, hm⟩ : ∃ m, len / 24 % 2 ^ 32 = m + 1 := by
          rw [Nat.mod_eq_of_lt hlt]
          exact Nat.exists_eq_add_one.2 (by omega)
        by_contra hne
        rw [hm, EventRing.copy, if_neg hne] at hout
        exact hout (List.cons_ne_nil _ _)

/-- Whole events do not fill the staging buffer. -/
theorem evdevReadable_ragged : evdevReadable.Ragged := by
  intro c nonblock data h
  obtain ⟨k, -, hdata⟩ := length_evdevClientRead h
  rw [hdata, stageMax]
  omega

def evfdRead (e : Evfd.Eventfd) (nonblock : Bool) (len : Nat) :
    Evfd.Eventfd × Pass (List UInt8) :=
  if len < 8 then (e, .done (.error .einval))
  else
    match Evfd.eventfdDoRead e with
    | some (.took v, e') =>
        (e', .done (.ok (List.ofFn fun i : Fin 8 => .ofBitVec (v.extractLsb' (8 * i) 8))))
    | _ => if nonblock then (e, .done (.error .eagain)) else (e, .sleep 0)

theorem length_evfdRead {e : Evfd.Eventfd} {nonblock : Bool} {len : Nat} {data : List UInt8}
    (h : (evfdRead e nonblock len).2 = .done (.ok data)) : data.length = 8 ∧ 8 ≤ len := by
  unfold evfdRead at h
  split at h
  · cases h
  · next hlen =>
      split at h
      · cases h
        exact ⟨List.length_ofFn, not_lt.1 hlen⟩
      · split_ifs at h
        cases h

def evfdReadable : Readable Evfd.Eventfd where
  read := evfdRead
  idle e := e.count == 0
  fits _ h := (length_evfdRead h).1.trans_le (length_evfdRead h).2
  sleeps := by
    intro e nonblock len n _ h
    unfold evfdRead at h
    split at h
    · cases h
    · split at h
      · cases h
      · next hnone =>
          split_ifs at h with hblock
          cases h
          refine ⟨rfl, by simpa using hblock, ?_⟩
          by_contra hcount
          have hne : e.count ≠ 0 := by simpa using hcount
          have hpos : 0 < e.count := by bv_omega
          rw [Evfd.eventfdDoRead, if_pos hpos] at hnone
          cases hsem : e.semaphore <;> simp [hsem] at hnone

theorem evfdReadable_ragged : evfdReadable.Ragged := by
  intro e nonblock data h
  rw [(length_evfdRead h).1]
  decide

/-! ## The copies of a read

`Vm.readToUser` is the same loop over the memory of the process, with the answers of the object
given beforehand. -/

/-- An object that gives the answers of a list one after the other. -/
def listReadable : Readable (List (Except Errno (List UInt8))) where
  read
    | [], nonblock, _ => ([], if nonblock then .done (.error .eagain) else .sleep 0)
    | .error e :: rest, _, _ => (rest, .done (.error e))
    | .ok data :: rest, _, len => (rest, .done (.ok (data.take len)))
  idle := List.isEmpty
  fits := by
    intro o nonblock len data _ h
    match o with
    | [] => cases nonblock <;> cases h
    | .error e :: rest => cases h
    | .ok all :: rest =>
        cases h
        exact List.length_take_le ..
  sleeps := by
    intro o nonblock len n _ h
    match o, nonblock with
    | [], false =>
        cases h
        exact ⟨rfl, rfl, rfl⟩
    | [], true | .error e :: rest, _ | .ok all :: rest, _ => cases h

section Answers

variable {nonblock : Bool} {len remaining : Nat} {done : List UInt8}
  {reads : List (Except Errno (List Vm.Byte))} {data : List Vm.Byte}

/-- The reader before it asks an object that is going to answer `reads`. -/
def Reader.answered (reads : List (Except Errno (List Vm.Byte))) (done : List UInt8)
    (remaining : Nat) : Reader (List (Except Errno (List UInt8))) :=
  ⟨reads.map (Except.map (List.map .ofBitVec)), done, remaining, .asking⟩

theorem readToUser_answer (hrem : remaining ≠ 0) (hdata : data ≠ [])
    (hfit : data.length ≤ min remaining stageMax) (missed : Nat) :
    readToUser listReadable nonblock (.answered (.ok data :: reads) done remaining) missed =
      if 0 < missed then
        (Reader.answered reads (done ++ (data.take (data.length - missed)).map .ofBitVec)
          remaining).returns .efault
      else
        { Reader.answered reads (done ++ data.map .ofBitVec) (remaining - data.length) with
          progress :=
            if data.length < min remaining stageMax then .returned (.ok (done.length + data.length))
            else .asking } := by
  have htake : (data.map UInt8.ofBitVec).take (min remaining stageMax) = data.map .ofBitVec :=
    List.take_of_length_le (by rwa [List.length_map])
  rw [readToUser, Reader.answered, if_neg hrem]
  simp only [listReadable, List.map_cons, Except.map, htake, List.map_eq_nil_iff, hdata, if_false,
    List.length_map, List.length_append, List.map_take]
  rfl

theorem doneOr_length (done : List UInt8) (e : Errno) :
    Vm.doneOr done.length e = .returned (if done = [] then .error e else .ok done.length) := by
  cases done <;> simp [Vm.doneOr]

/-- The read can return `r` without a sleep. -/
def Reader.Finishes (nonblock : Bool) (len : Nat) (s : Reader (List (Except Errno (List UInt8))))
    (r : Except Errno Nat) : Prop :=
  ∃ as s', (readSystem listReadable nonblock len).run (fun _ _ => True) s as = some s' ∧
    s'.progress = .returned r

theorem Reader.Finishes.turn {r : Except Errno Nat} (missed : Nat)
    (h : (readToUser listReadable nonblock (.answered reads done remaining) missed).Finishes
      nonblock len r) :
    (Reader.answered reads done remaining).Finishes nonblock len r :=
  h.elim fun as hs => ⟨.turn missed :: as, hs⟩

theorem Reader.Finishes.last {s : Reader (List (Except Errno (List UInt8)))}
    {r : Except Errno Nat} (h : s.progress = .returned r) : s.Finishes nonblock len r :=
  ⟨[], s, rfl, h⟩

/-- What `Vm.readToUser` returns, a read of an object with the same answers returns. -/
theorem readToUser_finishes {device : Vm.Frame → Bool} {p : Vm.Pid} {uptr : Nat}
    {m m' : Vm.Ring0} {r : Except Errno Nat}
    (h : Vm.readToUser device p reads uptr done.length remaining m = some (m', .returned r)) :
    (Reader.answered reads done remaining).Finishes nonblock len r := by
  induction reads generalizing remaining m done with
  | nil =>
      rw [Vm.readToUser.eq_def] at h
      split at h
      · next hrem =>
          cases h
          exact .turn 0 (.last (by simp [readToUser, Reader.answered, hrem]))
      · cases h
  | cons a reads ih =>
      rw [Vm.readToUser.eq_def] at h
      split at h
      · next hrem =>
          cases h
          exact .turn 0 (.last (by simp [readToUser, Reader.answered, hrem]))
      next hrem =>
      cases a with
      | error e =>
          dsimp only at h
          rw [doneOr_length] at h
          cases h
          refine .turn 0 (.last ?_)
          simp [readToUser, Reader.answered, hrem, listReadable, Reader.returns, Except.map]
      | ok data =>
          dsimp only at h
          split at h
          · next hnil =>
              cases h
              refine .turn 0 (.last ?_)
              simp [readToUser, Reader.answered, hrem, listReadable, Except.map, hnil]
          next hnil =>
          split at h
          · cases h
          next hfit =>
          obtain ⟨c, -, h⟩ := Option.bind_eq_some_iff.1 h
          have hturn : ∀ missed, readToUser listReadable nonblock
              (.answered (.ok data :: reads) done remaining) missed = _ :=
            readToUser_answer hrem hnil (not_lt.1 hfit)
          split at h
          · cases h
          split at h
          · next hmissed =>
              have hlen : done.length + (data.length - c.missed) =
                  (done ++ (data.take (data.length - c.missed)).map UInt8.ofBitVec).length := by
                simp
              rw [hlen, doneOr_length] at h
              cases h
              refine .turn c.missed (.last ?_)
              rw [hturn, if_pos hmissed]
              rfl
          have hlen : done.length + data.length = (done ++ data.map UInt8.ofBitVec).length := by
            simp
          refine .turn 0 ?_
          rw [hturn, if_neg (lt_irrefl 0)]
          split at h
          · next hshort =>
              cases h
              exact .last (if_pos hshort)
          · next hfull =>
              rw [hlen] at h
              rw [if_neg hfull]
              exact ih h

end Answers

/-! ## A pipe read through the loop -/

def zeroPipe (n : Nat) : Pipe := ⟨⟨fun _ => 0, 0, n⟩, 1, 1, 2⟩

def idleTty : Tty := ⟨⟨fun _ => 0, 0, 0⟩, true, false, false, Nat.zero_le _⟩

end NeoKernel.Ipc
