import NeoKernel.Ipc.Pipe
import NeoKernel.Lib.Trans
import NeoKernel.Sched.FdTable

/-!
# Objects made by one open (kernel/ipc/socketpair.c, kernel/drivers/input)

The ends of a socket pair and the readers of an input device are allocated when they are opened
and freed by the `close` hook of a descriptor. One step is one system call. A hook or an operation
that finds its object freed sets `fault`.
-/
namespace NeoKernel.PerOpen
open Ipc (Pipe)
open Lib Fd List Option AList

inductive File where
  | spair (e : Nat)
  | evdev (c : Nat)
  | other
  deriving DecidableEq, Repr

structure SpairEnd where
  rd : Nat
  wr : Nat
  deriving DecidableEq, Repr

/-- `struct evdev_client`; nothing changes `refcount`. -/
structure EvdevClient where
  dev : Nat
  refcount : Nat
  deriving DecidableEq, Repr

structure InputDev where
  clients : List Nat
  grab : Option Nat
  deriving DecidableEq, Repr

structure Opens where
  tables : Tables File
  ends : Table Nat SpairEnd
  pipes : Table Nat Pipe
  clients : Table Nat EvdevClient
  devs : Nat → InputDev
  /-- Not in the source: the objects opened so far. -/
  opened : List File
  /-- Not in the source: the objects in the order in which they were freed. -/
  freed : List File
  /-- Not in the source: an object was used after it was freed. -/
  fault : Bool

namespace Opens

def setFault (s : Opens) : Opens := { s with fault := true }

/-! ## Pipes (kernel/ipc/pipe.c) -/

def pipeDupEp (s : Opens) (a : Nat) (asReader asWriter : Bool) : Opens :=
  match s.pipes.lookup a with
  | none => s.setFault
  | some q => { s with pipes := s.pipes.insert a (q.dupEp asReader asWriter) }

def pipeCloseEp (s : Opens) (a : Nat) (asReader asWriter : Bool) : Opens :=
  match s.pipes.lookup a with
  | none => s.setFault
  | some q =>
      match q.closeEp asReader asWriter with
      | none => { s with pipes := s.pipes.erase a }
      | some q' => { s with pipes := s.pipes.insert a q' }

/-! ## Hooks -/

def spairDup (s : Opens) (e : Nat) : Opens :=
  match s.ends.lookup e with
  | none => s.setFault
  | some x => (s.pipeDupEp x.rd true false).pipeDupEp x.wr false true

/-- The end is freed whatever other descriptors there are. -/
def spairClose (s : Opens) (e : Nat) : Opens :=
  match s.ends.lookup e with
  | none => { s.setFault with freed := .spair e :: s.freed }
  | some x =>
      let s' := (s.pipeCloseEp x.rd true false).pipeCloseEp x.wr false true
      { s' with ends := s.ends.erase e, freed := .spair e :: s.freed }

def evdevFopDup (s : Opens) (_c : Nat) : Opens := s

def evdevClientClose (s : Opens) (c : Nat) : Opens :=
  match s.clients.lookup c with
  | none => { s.setFault with freed := .evdev c :: s.freed }
  | some x =>
      let dev := s.devs x.dev
      let dev' : InputDev :=
        { clients := dev.clients.erase c, grab := if dev.grab = some c then none else dev.grab }
      { s with
        devs := Function.update s.devs x.dev dev'
        clients := s.clients.erase c
        freed := .evdev c :: s.freed }

def runHook (s : Opens) : Hook File → Opens
  | .dup (.spair e) => s.spairDup e
  | .dup (.evdev c) => s.evdevFopDup c
  | .dup .other => s
  | .close (.spair e) => s.spairClose e
  | .close (.evdev c) => s.evdevClientClose c
  | .close .other => s

def apply (s : Opens) (r : Tables File × List (Hook File)) : Opens :=
  r.2.foldl runHook { s with tables := r.1 }

def use (s : Opens) : File → Opens
  | .spair e => if (s.ends.lookup e).isSome then s else s.setFault
  | .evdev c => if (s.clients.lookup c).isSome then s else s.setFault
  | .other => s

/-- `evdev_client_grab`: `EVIOCGRAB` on a descriptor. Another client's grab stays, with
`-EBUSY`. -/
def evdevClientGrab (s : Opens) (c : Nat) (on : Bool) : Opens :=
  match s.clients.lookup c with
  | none => s.setFault
  | some x =>
      let dev := s.devs x.dev
      if dev.grab = none ∨ dev.grab = some c then
        let grab := if on then some c else none
        { s with devs := Function.update s.devs x.dev { dev with grab := grab } }
      else s

/-! ## Opening -/

def evdevOpen (s : Opens) (p dev c : Nat) (slots : Bool) : Opens :=
  match fdTableInstall s.tables p slots (.evdev c) with
  | none => s
  | some (T, _) =>
      { s with
        tables := T
        clients := s.clients.insert c ⟨dev, 1⟩
        devs := Function.update s.devs dev { s.devs dev with clients := c :: (s.devs dev).clients }
        opened := .evdev c :: s.opened }

/-- `socketpair_create`: `a`, `b`, `e0` and `e1` are what the allocations return. If there is
no slot for one of the descriptors everything is freed again. -/
def socketpairCreate (s : Opens) (p a b e0 e1 : Nat) (slots0 slots1 : Bool) : Opens :=
  match fdTableInstall s.tables p slots0 (.spair e0) with
  | none => s
  | some (T, _) =>
      match fdTableInstall T p slots1 (.spair e1) with
      | none => s
      | some (T', _) =>
          { s with
            tables := T'
            pipes := (s.pipes.insert a Pipe.initEnds).insert b Pipe.initEnds
            ends := (s.ends.insert e0 ⟨a, b⟩).insert e1 ⟨b, a⟩
            opened := .spair e0 :: .spair e1 :: s.opened }

end Opens

inductive OpenAct where
  /-- `open` of an input device; `kmalloc` says whether a client can be had. -/
  | evdevOpen (p dev c : Nat) (kmalloc slots : Bool)
  | socketpair (p a b e0 e1 : Nat) (kmalloc slots0 slots1 : Bool)
  | dup (p oldfd start : Nat) (slots : Bool)
  | dup2 (p oldfd newfd : Nat) (slots : Bool)
  | fork (p c : Nat)
  | close (p fd : Nat)
  | exit (p : Nat)
  | use (p fd : Nat)
  | grab (p fd : Nat) (on : Bool)
  deriving DecidableEq, Repr

def openStep (s : Opens) : OpenAct → Option Opens
  | .evdevOpen p dev c kmalloc slots =>
      if .evdev c ∉ s.opened then
        some (if kmalloc then s.evdevOpen p dev c slots else s)
      else none
  | .socketpair p a b e0 e1 kmalloc slots0 slots1 =>
      if .spair e0 ∉ s.opened ∧ .spair e1 ∉ s.opened ∧ e0 ≠ e1 ∧ a ≠ b ∧
          (s.pipes.lookup a).isNone ∧ (s.pipes.lookup b).isNone then
        some (if kmalloc then s.socketpairCreate p a b e0 e1 slots0 slots1 else s)
      else none
  | .dup p oldfd start slots =>
      let r := dupFd s.tables p oldfd start slots
      some (s.apply (r.1, r.2.1))
  | .dup2 p oldfd newfd slots =>
      let r := fdTableDup2 s.tables p oldfd newfd slots
      some (s.apply (r.1, r.2.1))
  | .fork p c =>
      if (s.tables.lookup c).isNone then some (s.apply (fdTableDup s.tables p c)) else none
  | .close p fd => some (s.apply (fdTableClose s.tables p fd))
  | .exit p => some (s.apply (fdTableFree s.tables p))
  | .use p fd => ((tableOf s.tables p).lookup fd).map s.use
  | .grab p fd on =>
      match (tableOf s.tables p).lookup fd with
      | some (.evdev c) => some (s.evdevClientGrab c on)
      | _ => none

structure OpenInit (s : Opens) : Prop where
  tables : ∀ f ≠ File.other, descriptors s.tables f = 0
  ends : s.ends = ∅
  pipes : s.pipes = ∅
  clients : s.clients = ∅
  devs : ∀ d, s.devs d = ⟨[], none⟩
  opened : s.opened = []
  freed : s.freed = []
  fault : s.fault = false

def openSystem : System Opens OpenAct where
  init := OpenInit
  step := openStep

/-- No descriptor of an end of a socket pair or of an input device is duplicated. -/
def Sole (s : Opens) : OpenAct → Prop
  | .dup p oldfd _ _ => ∀ f ∈ (tableOf s.tables p).lookup oldfd, f = File.other
  | .dup2 p oldfd newfd _ =>
      oldfd ≠ newfd → ∀ f ∈ (tableOf s.tables p).lookup oldfd, f = File.other
  | .fork p _ => ∀ f ∈ (tableOf s.tables p).values, f = File.other
  | _ => True

variable {s' : Opens}

namespace Opens

variable {s : Opens} {f : File} {loose : List File} {hs : List (Hook File)} {p : Nat}

def live (s : Opens) : File → Nat
  | .spair e => (s.ends.lookup e).isSome.toNat
  | .evdev c => (s.clients.lookup c).isSome.toNat
  | .other => 0

def pipeRefs (s : Opens) (a : Nat) : Nat := (s.pipes.lookup a).elim 0 (·.refs)

def pipeUsers (s : Opens) (a : Nat) : Nat := s.ends.weigh fun _ x => [x.rd, x.wr].count a

theorem pipeCloseEp_eq {a : Nat} (r w : Bool) (h : 0 < s.pipeRefs a) :
    ∃ pipes, s.pipeCloseEp a r w = { s with pipes } ∧
      ∀ b, pipeRefs { s with pipes } b + [a].count b = s.pipeRefs b := by
  unfold pipeRefs at h ⊢
  cases hq : s.pipes.lookup a with
  | none => simp [hq] at h
  | some q =>
      have hpos : 0 < q.refs := by simpa [hq] using h
      rw [pipeCloseEp, hq]
      dsimp only
      unfold Pipe.closeEp
      dsimp only
      by_cases hlast : q.refs - 1 = 0
      · rw [if_pos hlast]
        refine ⟨_, rfl, fun b => ?_⟩
        by_cases hb : b = a
        · subst hb
          simp [lookup_erase, hq]
          omega
        · rw [lookup_erase_ne hb, count_eq_zero.2 (by simpa using hb)]
          rfl
      · rw [if_neg hlast]
        refine ⟨_, rfl, fun b => ?_⟩
        by_cases hb : b = a
        · subst hb
          simp [lookup_insert, hq]
          omega
        · rw [lookup_insert_ne hb, count_eq_zero.2 (by simpa using hb)]
          rfl

section Present

variable {ν : Type} {t : Table Nat ν} {k : Nat} {mk : Nat → File}
  (hmk : Function.Injective mk) (k' : Nat)
include hmk

theorem isSome_erase {v : ν} (h : t.lookup k = some v) :
    ((t.erase k).lookup k').isSome.toNat + [mk k].count (mk k') = (t.lookup k').isSome.toNat := by
  by_cases hk : k' = k
  · subst hk
    simp [h]
  · rw [lookup_erase_ne hk, count_eq_zero.2 (by simpa using hmk.ne hk)]
    rfl

theorem isSome_insert {v : ν} (h : t.lookup k = none) :
    ((t.insert k v).lookup k').isSome.toNat =
      (t.lookup k').isSome.toNat + [mk k].count (mk k') := by
  by_cases hk : k' = k
  · subst hk
    simp [h]
  · rw [lookup_insert_ne hk, count_eq_zero.2 (by simpa using hmk.ne hk)]
    rfl

end Present

theorem spair_injective : Function.Injective File.spair := fun _ _ => File.spair.inj

theorem evdev_injective : Function.Injective File.evdev := fun _ _ => File.evdev.inj

def ClientOf (clients : Table Nat EvdevClient) (d c : Nat) : Prop :=
  ∃ x, clients.lookup c = some x ∧ x.dev = d

structure Listed (clients : Table Nat EvdevClient) (d : Nat) (dev : InputDev) : Prop where
  listed : ∀ c ∈ dev.clients, ClientOf clients d c
  nodup : dev.clients.Nodup
  grab : ∀ c ∈ dev.grab, ClientOf clients d c

theorem Listed.mono {clients clients' : Table Nat EvdevClient} {d : Nat} {dev : InputDev}
    (h : Listed clients d dev)
    (hsub : ∀ c ∈ dev.clients ++ dev.grab.toList, ClientOf clients d c → ClientOf clients' d c) :
    Listed clients' d dev where
  listed c hc := hsub c (mem_append_left _ hc) (h.listed c hc)
  nodup := h.nodup
  grab c hc := hsub c (mem_append_right _ (mem_toList.2 hc)) (h.grab c hc)

/-- In the middle of a call `loose` are the descriptors whose `close` hook is still to run. -/
structure Inv (s : Opens) (loose : List File) : Prop where
  refs : ∀ f, f ≠ .other → descriptors s.tables f + loose.count f = s.live f
  log : ∀ f, f ≠ .other → s.live f + s.freed.count f = s.opened.count f
  once : s.opened.Nodup
  pipes : ∀ a, s.pipeRefs a = s.pipeUsers a
  listed : ∀ d, Listed s.clients d (s.devs d)
  fault : s.fault = false

theorem Inv.init (h : OpenInit s) : Inv s [] where
  refs f hf := by
    rw [h.tables f hf]
    cases f <;> simp [live, h.ends, h.clients]
  log f hf := by
    rw [h.freed, h.opened]
    cases f <;> simp [live, h.ends, h.clients]
  once := by
    rw [h.opened]
    exact nodup_nil
  pipes a := by simp [pipeRefs, pipeUsers, h.pipes, h.ends]
  listed d := by constructor <;> simp [h.devs d]
  fault := h.fault

theorem Inv.free (h : Inv s (f :: loose)) (htables : s'.tables = s.tables)
    (hfreed : s'.freed = f :: s.freed) (hopened : s'.opened = s.opened)
    (hlive : ∀ g, s'.live g + [f].count g = s.live g) (hpipes : ∀ a, s'.pipeRefs a = s'.pipeUsers a)
    (hlisted : ∀ d, Listed s'.clients d (s'.devs d)) (hfault : s'.fault = false) :
    Inv s' loose where
  refs g hg := by
    have hrefs := h.refs g hg
    have hg := hlive g
    rw [count_cons] at hrefs
    rw [count_singleton] at hg
    rw [htables]
    omega
  log g hg := by
    have hlog := h.log g hg
    have hg := hlive g
    rw [count_singleton] at hg
    rw [hfreed, hopened, count_cons]
    omega
  once := by
    rw [hopened]
    exact h.once
  pipes := hpipes
  listed := hlisted
  fault := hfault

theorem Inv.spairClose {e : Nat} (h : Inv s (.spair e :: loose)) : Inv (s.spairClose e) loose := by
  have hlive := h.refs (.spair e) nofun
  cases hx : s.ends.lookup e with
  | none => simp [live, hx] at hlive
  | some x =>
      have husers (a : Nat) : s.pipeRefs a =
          ([x.rd].count a + [x.wr].count a) +
            Table.weigh (fun _ y => [y.rd, y.wr].count a) (s.ends.erase e) := by
        rw [h.pipes a, pipeUsers, Table.weigh_of_lookup hx, ← count_append]
        rfl
      have hself (a : Nat) : [a].count a = 1 := count_singleton_self
      obtain ⟨pipes₁, hclose₁, hrefs₁⟩ := pipeCloseEp_eq (a := x.rd) true false (s := s) (by
        have := husers x.rd
        have := hself x.rd
        omega)
      obtain ⟨pipes₂, hclose₂, hrefs₂⟩ := pipeCloseEp_eq (a := x.wr) false true
        (s := { s with pipes := pipes₁ }) (by
        have := husers x.wr
        have := hrefs₁ x.wr
        have := hself x.wr
        omega)
      rw [Opens.spairClose, hx]
      dsimp only
      rw [hclose₁, hclose₂]
      refine h.free rfl rfl rfl (fun g => ?_) (fun a => ?_) h.listed h.fault
      · cases g with
        | spair e' => exact isSome_erase spair_injective e' hx
        | evdev | other => rfl
      · have := husers a
        have := hrefs₁ a
        have := hrefs₂ a
        change pipeRefs { s with pipes := pipes₂ } a =
          Table.weigh (fun _ y => [y.rd, y.wr].count a) (s.ends.erase e)
        dsimp only at *
        omega

section Clients

variable {clients : Table Nat EvdevClient} {d c c' : Nat} {x : EvdevClient} {dev : InputDev}

theorem ClientOf.erase (h : ClientOf clients d c') (hne : c' ≠ c) :
    ClientOf (clients.erase c) d c' := by
  unfold ClientOf
  rw [lookup_erase_ne hne]
  exact h

theorem ClientOf.insert (h : ClientOf clients d c') (hfresh : clients.lookup c = none) :
    ClientOf (clients.insert c x) d c' := by
  obtain ⟨y, hy, hd⟩ := h
  have hne : c' ≠ c := by
    rintro rfl
    rw [hfresh] at hy
    cases hy
  refine ⟨y, ?_, hd⟩
  rw [lookup_insert_ne hne]
  exact hy

theorem Listed.leave (h : Listed clients d dev) :
    Listed (clients.erase c) d
      ⟨dev.clients.erase c, if dev.grab = some c then none else dev.grab⟩ where
  listed c' hc' := by
    obtain ⟨hne, hmem⟩ := h.nodup.mem_erase_iff.1 hc'
    exact (h.listed c' hmem).erase hne
  nodup := h.nodup.erase c
  grab c' hc' := by
    split at hc'
    · cases hc'
    · next hgrab =>
        apply (h.grab c' hc').erase
        rintro rfl
        exact hgrab hc'

theorem Listed.erase_other (h : Listed clients d dev) (hx : clients.lookup c = some x)
    (hd : d ≠ x.dev) : Listed (clients.erase c) d dev := by
  apply h.mono
  intro c' _ hc'
  apply hc'.erase
  rintro rfl
  obtain ⟨y, hy, hyd⟩ := hc'
  rw [hx] at hy
  cases hy
  exact hd hyd.symm

theorem Listed.join (h : Listed clients d dev) (hfresh : clients.lookup c = none) (n : Nat) :
    Listed (clients.insert c ⟨d, n⟩) d { dev with clients := c :: dev.clients } where
  listed c' hc' := by
    cases hc' with
    | head => exact ⟨_, lookup_insert clients, rfl⟩
    | tail _ hmem => exact (h.listed c' hmem).insert hfresh
  nodup := by
    refine nodup_cons.2 ⟨?_, h.nodup⟩
    intro hmem
    obtain ⟨y, hy, -⟩ := h.listed c hmem
    rw [hfresh] at hy
    cases hy
  grab c' hc' := (h.grab c' hc').insert hfresh

end Clients

theorem Inv.evdevClientClose {c : Nat} (h : Inv s (.evdev c :: loose)) :
    Inv (s.evdevClientClose c) loose := by
  have hlive := h.refs (.evdev c) nofun
  rw [Opens.evdevClientClose]
  cases hx : s.clients.lookup c with
  | none => simp [live, hx] at hlive
  | some x =>
      dsimp only
      refine h.free rfl rfl rfl ?_ h.pipes ?_ h.fault
      · intro g
        cases g with
        | evdev c' => exact isSome_erase evdev_injective c' hx
        | spair | other => rfl
      · intro d
        by_cases hd : d = x.dev
        · subst hd
          simp only [Function.update_self]
          exact (h.listed x.dev).leave
        · simp only [Function.update_of_ne hd]
          exact (h.listed d).erase_other hx hd

theorem Inv.runHook {hook : Hook File} (h : Inv s (hook.closed.toList ++ loose))
    (hdup : ∀ f ∈ hook.duped, f = .other) : Inv (s.runHook hook) loose := by
  cases hook with
  | dup f =>
      cases hdup f rfl
      exact h
  | close f =>
      cases f with
      | spair e => exact h.spairClose
      | evdev c => exact h.evdevClientClose
      | other =>
          refine { h with refs := fun g hg => ?_ }
          have hrefs := h.refs g hg
          rw [show (Hook.close File.other).closed.toList ++ loose = .other :: loose from rfl,
            count_cons_of_ne (Ne.symm hg)] at hrefs
          exact hrefs

theorem Inv.runHooks (h : Inv s (hs.filterMap Hook.closed))
    (hcopy : ∀ f ∈ hs.filterMap Hook.duped, f = .other) : Inv (hs.foldl Opens.runHook s) [] := by
  induction hs generalizing s with
  | nil => exact h
  | cons hook hs ih =>
      have hnext : Inv (s.runHook hook) (hs.filterMap Hook.closed) := by
        apply Inv.runHook
        · cases hook <;> exact h
        · intro f hf
          exact hcopy f (mem_filterMap.2 ⟨hook, mem_cons_self, hf⟩)
      apply ih hnext
      intro f hf
      obtain ⟨g, hg, hgf⟩ := mem_filterMap.1 hf
      exact hcopy f (mem_filterMap.2 ⟨g, mem_cons_of_mem _ hg, hgf⟩)

theorem Inv.apply {T : Tables File} {src : File → Prop} (h : Inv s []) (hT : Told s.tables T hs src)
    (hcopy : ∀ f, src f → f = .other) : Inv (s.apply (T, hs)) [] := by
  apply Inv.runHooks _ fun f hf => hcopy f (hT.duped f hf)
  refine { h with refs := fun g hg => ?_ }
  have hnone : (hs.filterMap Hook.duped).count g = 0 :=
    count_eq_zero.2 fun hmem => hg (hcopy g (hT.duped g hmem))
  have hrefs := h.refs g hg
  have hbal := hT.balanced g
  rw [hnone] at hbal
  exact hbal.trans hrefs

theorem Inv.opens {fs : List File} (h : Inv s [])
    (htables : ∀ g, descriptors s'.tables g = descriptors s.tables g + fs.count g)
    (hlive : ∀ g, g ≠ .other → s'.live g = s.live g + fs.count g) (hfreed : s'.freed = s.freed)
    (hopened : s'.opened = fs ++ s.opened) (hnew : (fs ++ s.opened).Nodup)
    (hpipes : ∀ a, s'.pipeRefs a = s'.pipeUsers a) (hlisted : ∀ d, Listed s'.clients d (s'.devs d))
    (hfault : s'.fault = s.fault) : Inv s' [] where
  refs g hg := by
    have hrefs := h.refs g hg
    rw [htables, hlive g hg, ← hrefs]
    simp only [count_nil, Nat.add_zero]
  log g hg := by
    have hlog := h.log g hg
    rw [hlive g hg, hfreed, hopened, count_append]
    omega
  once := by
    rw [hopened]
    exact hnew
  pipes := hpipes
  listed := hlisted
  fault := hfault.trans h.fault

theorem Inv.live_of_new (h : Inv s loose) (hf : f ≠ .other) (hnew : f ∉ s.opened) :
    s.live f = 0 := by
  have hlog := h.log f hf
  rw [count_eq_zero.2 hnew] at hlog
  omega

theorem Inv.evdevOpen {dev c : Nat} {slots : Bool} (h : Inv s []) (hnew : .evdev c ∉ s.opened) :
    Inv (s.evdevOpen p dev c slots) [] := by
  have hdead : s.live (.evdev c) = 0 := h.live_of_new (by exact nofun) hnew
  have hfresh : s.clients.lookup c = none := by simpa [live] using hdead
  rw [Opens.evdevOpen]
  split
  · exact h
  · next T fd hinst =>
      refine h.opens (descriptors_install hinst) ?_ rfl rfl
        (nodup_cons.2 ⟨hnew, h.once⟩) h.pipes ?_ rfl
      · intro g _
        cases g with
        | evdev c' => exact isSome_insert evdev_injective c' hfresh
        | spair | other => rfl
      · intro d
        by_cases hd : d = dev
        · subst hd
          simp only [Function.update_self]
          exact (h.listed d).join hfresh 1
        · simp only [Function.update_of_ne hd]
          exact (h.listed d).mono fun _ _ hc' => hc'.insert hfresh

theorem Inv.socketpairCreate {a b e0 e1 : Nat} {slots0 slots1 : Bool} (h : Inv s [])
    (hnew0 : .spair e0 ∉ s.opened) (hnew1 : .spair e1 ∉ s.opened) (he : e0 ≠ e1) (hab : a ≠ b)
    (ha : s.pipes.lookup a = none) (hb : s.pipes.lookup b = none) :
    Inv (s.socketpairCreate p a b e0 e1 slots0 slots1) [] := by
  have hdead0 : s.live (.spair e0) = 0 := h.live_of_new (by exact nofun) hnew0
  have hdead1 : s.live (.spair e1) = 0 := h.live_of_new (by exact nofun) hnew1
  have hfresh0 : s.ends.lookup e0 = none := by simpa [live] using hdead0
  have hfresh1 : s.ends.lookup e1 = none := by simpa [live] using hdead1
  have hfresh0' : (s.ends.insert e0 ⟨a, b⟩).lookup e1 = none := by
    rw [lookup_insert_ne (Ne.symm he), hfresh1]
  rw [Opens.socketpairCreate]
  split
  · exact h
  · next T fd0 hinst0 =>
      split
      · exact h
      · next T' fd1 hinst1 =>
          have htables (g : File) : descriptors T' g =
              descriptors s.tables g + [File.spair e0, .spair e1].count g := by
            rw [descriptors_install hinst1, descriptors_install hinst0, Nat.add_assoc,
              ← count_append]
            rfl
          refine h.opens htables ?_ rfl rfl ?_ ?_ h.listed rfl
          · intro g _
            cases g with
            | spair e =>
                refine (isSome_insert spair_injective e hfresh0').trans ?_
                rw [isSome_insert spair_injective e hfresh0, Nat.add_assoc, ← count_append]
                rfl
            | evdev | other => rfl
          · refine nodup_cons.2 ⟨?_, nodup_cons.2 ⟨hnew1, h.once⟩⟩
            simp [he, hnew0]
          · intro x
            have husers : s.pipeRefs x = s.pipeUsers x := h.pipes x
            unfold pipeRefs pipeUsers at husers ⊢
            dsimp only
            rw [Table.weigh_insert_of_none hfresh0', Table.weigh_insert_of_none hfresh0, ← husers]
            by_cases hxb : x = b
            · subst hxb
              simp [hb, hab, Pipe.initEnds]
            · by_cases hxa : x = a
              · subst hxa
                simp [ha, lookup_insert_ne hxb, Ne.symm hab, Pipe.initEnds]
              · simp [lookup_insert_ne hxb, lookup_insert_ne hxa, Ne.symm hxa,
                  Ne.symm hxb]

theorem Inv.live_of_lookup {fd : Nat} (h : Inv s loose) (hf : f ≠ .other)
    (hfd : (tableOf s.tables p).lookup fd = some f) : s.live f ≠ 0 := by
  have hpos := descriptors_pos hfd
  have hrefs := h.refs f hf
  omega

theorem Inv.use {fd : Nat} (h : Inv s []) (hfd : (tableOf s.tables p).lookup fd = some f) :
    s.use f = s := by
  cases f with
  | spair e =>
      have hlive : s.live (.spair e) ≠ 0 := h.live_of_lookup (by exact nofun) hfd
      apply if_pos
      simpa [live, isSome_iff_ne_none] using hlive
  | evdev c =>
      have hlive : s.live (.evdev c) ≠ 0 := h.live_of_lookup (by exact nofun) hfd
      apply if_pos
      simpa [live, isSome_iff_ne_none] using hlive
  | other => rfl

theorem Inv.evdevClientGrab {fd c : Nat} {on : Bool} (h : Inv s [])
    (hfd : (tableOf s.tables p).lookup fd = some (.evdev c)) : Inv (s.evdevClientGrab c on) [] := by
  have hlive : s.live (.evdev c) ≠ 0 := h.live_of_lookup (by exact nofun) hfd
  rw [Opens.evdevClientGrab]
  cases hx : s.clients.lookup c with
  | none => simp [live, hx] at hlive
  | some x =>
      dsimp only
      split
      · refine { h with listed := fun d => ?_ }
        by_cases hd : d = x.dev
        · subst hd
          simp only [Function.update_self]
          refine ⟨(h.listed x.dev).listed, (h.listed x.dev).nodup, fun c' hc' => ?_⟩
          split at hc'
          · cases hc'
            exact ⟨x, hx, rfl⟩
          · cases hc'
        · simp only [Function.update_of_ne hd]
          exact h.listed d
      · exact h

end Opens

theorem Inv.step {s : Opens} {act : OpenAct} (h : s.Inv []) (hsole : Sole s act)
    (hs : openStep s act = some s') : s'.Inv [] := by
  revert hs
  fun_cases openStep s act <;> intro hs <;> try cases hs
  · next p dev c kmalloc slots hnew =>
      cases kmalloc with
      | true => exact h.evdevOpen hnew
      | false => exact h
  · next p a b e0 e1 kmalloc slots0 slots1 hnew =>
      obtain ⟨hnew0, hnew1, he, hab, ha, hb⟩ := hnew
      cases kmalloc with
      | true =>
          exact h.socketpairCreate hnew0 hnew1 he hab (isNone_iff_eq_none.1 ha)
            (isNone_iff_eq_none.1 hb)
      | false => exact h
  · exact h.apply dupFd_told hsole
  · exact h.apply fdTableDup2_told fun f hf => hsole hf.1 f hf.2
  · next p c hc => exact h.apply (fdTableDup_told (isNone_iff_eq_none.1 hc)) hsole
  · exact h.apply fdTableClose_told nofun
  · exact h.apply fdTableFree_told nofun
  · obtain ⟨f, hfd, rfl⟩ := map_eq_some_iff.1 hs
    rw [h.use hfd]
    exact h
  · next p fd on c hfd => exact h.evdevClientGrab hfd

theorem Reach.inv {s : Opens} (hr : openSystem.Reach Sole s) : s.Inv [] :=
  System.Reach.invariant (·.Inv []) hr (fun _ h => Opens.Inv.init h)
    fun _ _ _ h hsole hs => Inv.step h hsole hs

/-- As long as no descriptor of a per-open object is duplicated: an object that was opened is
allocated and has a descriptor, or has no descriptor and was freed once; no hook, operation or
device reaches one that is freed. -/
theorem per_open_freed_once {s : Opens} (hr : openSystem.Reach Sole s) :
    (∀ f ∈ s.opened, f ≠ .other →
      (0 < descriptors s.tables f ∧ s.live f = 1 ∧ s.freed.count f = 0) ∨
        (descriptors s.tables f = 0 ∧ s.live f = 0 ∧ s.freed.count f = 1)) ∧
    (∀ f ∉ s.opened, f ≠ .other →
      descriptors s.tables f = 0 ∧ s.live f = 0 ∧ s.freed.count f = 0) ∧
    (∀ d, ∀ c ∈ (s.devs d).clients, s.live (.evdev c) = 1) ∧ s.fault = false := by
  have h := Reach.inv hr
  refine ⟨fun f hf hne => ?_, fun f hf hne => ?_, fun d c hc => ?_, h.fault⟩
  · have hrefs := h.refs f hne
    have hlog := h.log f hne
    have hone : s.opened.count f = 1 := count_eq_one_of_mem h.once hf
    simp only [count_nil, Nat.add_zero] at hrefs
    omega
  · have hrefs := h.refs f hne
    have hlog := h.log f hne
    have hzero : s.opened.count f = 0 := count_eq_zero.2 hf
    simp only [count_nil, Nat.add_zero] at hrefs
    omega
  · obtain ⟨x, hx, -⟩ := (h.listed d).listed c hc
    simp [Opens.live, hx]

instance (s : Opens) : (act : OpenAct) → Decidable (Sole s act)
  | .dup .. => inferInstanceAs (Decidable (∀ f ∈ _, f = File.other))
  | .dup2 .. => inferInstanceAs (Decidable (_ → ∀ f ∈ _, f = File.other))
  | .fork .. => inferInstanceAs (Decidable (∀ f ∈ _, f = File.other))
  | .evdevOpen .. | .socketpair .. | .close .. | .exit .. | .use .. | .grab .. => isTrue trivial

def Opens.blank : Opens := ⟨∅, ∅, ∅, ∅, fun _ => ⟨[], none⟩, [], [], false⟩

theorem Opens.blank_init : OpenInit Opens.blank :=
  ⟨fun _ _ => rfl, rfl, rfl, rfl, fun _ => rfl, rfl, rfl, rfl⟩

/-- A socket pair and a keyboard are opened and used; one end and the keyboard are closed. -/
theorem per_open_freed_once_pair :
    ∃ s : Opens, openSystem.Reach Sole s ∧ s.freed = [.evdev 0, .spair 0] ∧
      descriptors s.tables (.spair 1) = 1 ∧ s.live (.spair 1) = 1 ∧ s.fault = false := by
  refine System.Reach.exists_of_run_imp
    [.socketpair 7 0 1 0 1 true true true, .evdevOpen 7 0 0 true true, .use 7 0, .use 7 1,
      .grab 7 2 true, .close 7 0, .use 7 1, .use 7 2, .close 7 2]
    Opens.blank_init (by decide +kernel) fun s hr (hs : s.freed = [.evdev 0, .spair 0] ∧
      descriptors s.tables (.spair 1) = 1 ∧ .spair 1 ∈ s.opened) => ?_
  obtain ⟨hopened, -, -, hfault⟩ := per_open_freed_once hr
  refine ⟨hs.1, hs.2.1, ?_, hfault⟩
  obtain ⟨-, hlive, -⟩ | ⟨hnone, -⟩ := hopened (.spair 1) hs.2.2 nofun
  · exact hlive
  · rw [hs.2.1] at hnone
    cases hnone

/-- One end of a socket pair is duplicated and both descriptors are closed: the end is freed
twice. A keyboard is opened and its descriptor inherited: when the child closes it, the parent
uses a freed client. -/
theorem copies_outlive_object :
    (∃ s : Opens, openSystem.Reach (fun _ _ => True) s ∧ 0 < descriptors s.tables (.spair 0) ∧
      s.live (.spair 0) = 0 ∧ s.fault = false) ∧
    (∃ s : Opens, openSystem.Reach (fun _ _ => True) s ∧ s.freed.count (.spair 0) = 2 ∧
      s.fault = true) ∧
    ∃ s : Opens, openSystem.Reach (fun _ _ => True) s ∧ 0 < descriptors s.tables (.evdev 0) ∧
      s.freed.count (.evdev 0) = 1 ∧ s.fault = true := by
  refine ⟨?_, ?_, ?_⟩
  · exact System.Reach.exists_of_run
      [.socketpair 7 0 1 0 1 true true true, .dup 7 0 0 true, .close 7 0]
      Opens.blank_init (by decide +kernel)
  · exact System.Reach.exists_of_run
      [.socketpair 7 0 1 0 1 true true true, .dup 7 0 0 true, .close 7 0, .close 7 2]
      Opens.blank_init (by decide +kernel)
  · exact System.Reach.exists_of_run
      [.evdevOpen 7 0 0 true true, .fork 7 8, .close 8 0, .use 7 0]
      Opens.blank_init (by decide +kernel)

end NeoKernel.PerOpen
