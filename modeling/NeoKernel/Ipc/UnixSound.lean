import NeoKernel.Ipc.UnixSock

/-!
# References of unix sockets

Every reference is accounted for by the work that drops it: it belongs to a descriptor, or to a
socket or a direction that leaves this work to do when it is freed, or the work is on the list.
`owed` is work for references whose `dup` is still to run, and `loose` is work that is not on the
list yet.
-/
namespace NeoKernel.UnixSock
open Lib Fd Ipc Function List Option Table AList

variable {side : Side} {s' : Unix} {owed' loose' : List Task} {T : Tables File} {fs : List File}
  {c : UnixConn} {n a b x d : Nat} {f : File} {k k' : Sock} {q q' : UnixDir} {r : Pipe} {t : Task}
  {kmalloc nonblock : Bool} {batches : List (List File)}

def UnixConn.dir (c : UnixConn) : Side → Nat
  | .reader => c.rd
  | .writer => c.wr

/-- The references a socket counts, by the work that drops one. -/
def Sock.held (x : Nat) (k : Sock) (t : Task) : Nat :=
  if t = .closeFile (.sock x) then k.refs else 0

def UState.tasks (st : UState) : List Task := st.conns.flatMap UnixConn.close

namespace UnixDir

def inFlight (q : UnixDir) (f : File) : Nat := q.batches.flatten.count f

def opened (q : UnixDir) (side : Side) : Nat := q.ring.elim 0 (·.opened side)

def held (d : Nat) (q : UnixDir) : Task → Nat
  | .closeFile _ => 0
  | .putDir d' side => if d' = d then q.opened side else 0

def tasks (q : UnixDir) : List Task := q.batches.flatten.map .closeFile

/-- The pipe is there, each of its ends is open at most once, and both counts of references are
those of its ends. -/
structure Whole (q : UnixDir) (r : Pipe) : Prop where
  ring : q.ring = some r
  refs : q.refs = r.refs
  ends : r.refs = r.opened .reader + r.opened .writer
  single : ∀ side, r.opened side ≤ 1
  pos : 0 < r.refs

theorem Whole.of_batches (h : q.Whole r) : Whole { q with batches := batches } r := { h with }

theorem Whole.opened (h : q.Whole r) (side : Side) : q.opened side = r.opened side := by
  rw [UnixDir.opened, h.ring]
  rfl

theorem Whole.last (h : q.Whole r) (hlast : r.refs = 1) (hside : 0 < r.opened side) (t : Task) :
    q.held d t = [Task.putDir d side].count t := by
  cases t with
  | closeFile f => rfl
  | putDir d' side' =>
      have hends := h.ends
      rw [UnixDir.held, h.opened]
      by_cases hd : d' = d
      · rw [hd, if_pos rfl]
        cases side <;> cases side' <;> simp <;> omega
      · rw [if_neg hd]
        exact (count_eq_zero.2 fun hmem =>
          hd (Task.putDir.inj (mem_singleton.1 hmem)).1).symm

end UnixDir

namespace Unix

variable {s : Unix} {owed loose : List Task} {hs : List (Hook File)} {p : Nat}
  {backlog : List UnixConn}

def refsOf (s : Unix) : File → Nat
  | .sock x => (s.socks.lookup x).elim 0 (·.refs)
  | .other o => s.others o

def inFlight (s : Unix) (f : File) : Nat := s.dirs.weigh fun _ q => q.inFlight f

def users (s : Unix) (d : Nat) (side : Side) : Nat :=
  s.socks.weigh fun _ k => (k.state.conns.map fun c => c.dir side).count d

def opens (s : Unix) (d : Nat) (side : Side) : Nat :=
  (s.dirs.lookup d).elim 0 fun q => q.opened side

def othersHeld (others : Nat → Nat) : Task → Nat
  | .closeFile (.other o) => others o
  | _ => 0

def openTasks (T : Tables File) : Task → Nat
  | .closeFile f => descriptors T f
  | .putDir _ _ => 0

/-- The references that are counted, by the work that drops one. -/
def held (s : Unix) (t : Task) : Nat :=
  othersHeld s.others t + (s.socks.weigh fun x k => k.held x t) + s.dirs.weigh fun d q => q.held d t

def uses (s : Unix) (t : Task) : Nat :=
  openTasks s.tables t + (s.socks.weigh fun _ k => k.state.tasks.count t) +
    s.dirs.weigh fun _ q => q.tasks.count t

def Endpoint (s : Unix) (c : UnixConn) : Prop :=
  ∃ x k, s.socks.lookup x = some k ∧ c ∈ k.state.conns

def Paired (s : Unix) : Prop :=
  ∀ c c', s.Endpoint c → s.Endpoint c' → c.wr = c'.rd → c'.wr = c.rd

theorem Paired.mono (h : s.Paired) (hsub : ∀ c, s'.Endpoint c → s.Endpoint c) :
    s'.Paired :=
  fun c c' hc hc' => h c c' (hsub c hc) (hsub c' hc')

theorem Paired.add {c₀ : UnixConn} (h : s.Paired)
    (hsub : ∀ c, s'.Endpoint c → c = c₀ ∨ s.Endpoint c)
    (hfit : ∀ c, s.Endpoint c → (c₀.wr = c.rd ↔ c.wr = c₀.rd)) : s'.Paired := by
  intro c c' hc hc' heq
  obtain rfl | hold := hsub c hc
  · obtain rfl | hold' := hsub c' hc'
    · exact heq
    · exact (hfit c' hold').1 heq
  · obtain rfl | hold' := hsub c' hc'
    · exact (hfit c hold).2 heq
    · exact h c c' hold hold' heq

structure Inv (s : Unix) (owed loose : List Task) : Prop where
  count : ∀ t, s.held t + owed.count t = s.uses t + (s.todo ++ loose).count t
  whole : ∀ d q, s.dirs.lookup d = some q → ∃ r, q.Whole r
  alive : ∀ x k, s.socks.lookup x = some k → 0 < k.refs
  paired : s.Paired
  bound : ∀ b ∈ s.bound, ∃ k, s.socks.lookup b.2 = some k
  fault : s.fault = false

theorem Inv.init (h : UnixInit s) : Inv s [] [] where
  count t := by
    rw [held, uses, h.socks, h.dirs, h.todo]
    cases t with
    | closeFile f =>
        cases f with
        | sock x => exact (h.tables x).symm
        | other o => exact h.others o
    | putDir d side => rfl
  whole d q hq := by
    rw [h.dirs] at hq
    cases hq
  alive x k hk := by
    rw [h.socks] at hk
    cases hk
  paired c c' hc := by
    obtain ⟨x, k, hk, -⟩ := hc
    rw [h.socks] at hk
    cases hk
  bound b hb := by
    rw [h.bound] at hb
    cases hb
  fault := h.fault

theorem held_closeFile (f : File) : s.held (.closeFile f) = s.refsOf f := by
  have hdirs : (s.dirs.weigh fun d q => q.held d (.closeFile f)) = 0 :=
    weigh_eq_zero fun _ _ _ => rfl
  rw [held, hdirs]
  cases f with
  | sock y =>
      have hsocks : (s.socks.weigh fun x k => k.held x (.closeFile (.sock y))) =
          s.refsOf (.sock y) := by
        rw [refsOf, ← weigh_single]
        exact weigh_congr fun _ _ => by simp [Sock.held, eq_comm]
      rw [hsocks]
      exact Nat.zero_add _
  | other o =>
      have hsocks : (s.socks.weigh fun x k => k.held x (.closeFile (.other o))) = 0 :=
        weigh_eq_zero fun _ _ _ => if_neg nofun
      rw [hsocks]
      rfl

theorem held_putDir (d : Nat) (side : Side) : s.held (.putDir d side) = s.opens d side := by
  have hsocks : (s.socks.weigh fun x k => k.held x (.putDir d side)) = 0 :=
    weigh_eq_zero fun _ _ _ => if_neg nofun
  have hdirs : (s.dirs.weigh fun d' q => q.held d' (.putDir d side)) = s.opens d side := by
    rw [opens, ← weigh_single]
    exact weigh_congr fun _ _ => by simp [UnixDir.held, eq_comm]
  rw [held, hsocks, hdirs]
  exact Nat.zero_add _

theorem uses_closeFile (f : File) :
    s.uses (.closeFile f) = descriptors s.tables f + s.inFlight f := by
  have hsocks : (s.socks.weigh fun _ k => k.state.tasks.count (.closeFile f)) = 0 :=
    weigh_eq_zero fun _ k _ => by simp [count_eq_zero, UState.tasks, UnixConn.close]
  have hdirs : (s.dirs.weigh fun _ q => q.tasks.count (.closeFile f)) = s.inFlight f :=
    weigh_congr fun _ _ =>
      count_map_of_injective _ _ (fun _ _ h => Task.closeFile.inj h) f
  rw [uses, hsocks, hdirs]
  rfl

theorem count_tasks (conns : List UnixConn) (d : Nat) (side : Side) :
    (conns.flatMap UnixConn.close).count (.putDir d side) =
      (conns.map fun c => c.dir side).count d := by
  induction conns with
  | nil => rfl
  | cons c conns ih =>
      rw [flatMap_cons, count_append, ih, map_cons, count_cons, Nat.add_comm]
      congr 1
      cases side <;> simp [UnixConn.close, UnixConn.dir, count_cons]

theorem uses_putDir (d : Nat) (side : Side) : s.uses (.putDir d side) = s.users d side := by
  have hsocks : (s.socks.weigh fun _ k => k.state.tasks.count (.putDir d side)) =
      s.users d side := weigh_congr fun x _ => count_tasks x.2.state.conns d side
  have hdirs : (s.dirs.weigh fun _ q => q.tasks.count (.putDir d side)) = 0 :=
    weigh_eq_zero fun _ q _ => by simp [count_eq_zero, UnixDir.tasks]
  rw [uses, hsocks, hdirs]
  exact Nat.zero_add _

theorem Inv.refs (h : Inv s owed loose) (f : File) : s.refsOf f + owed.count (.closeFile f) =
    descriptors s.tables f + s.inFlight f + (s.todo ++ loose).count (.closeFile f) := by
  rw [← held_closeFile, ← uses_closeFile]
  exact h.count _

theorem Inv.ends (h : Inv s [] loose) (d : Nat) (side : Side) :
    s.opens d side = s.users d side + (s.todo ++ loose).count (.putDir d side) := by
  rw [← held_putDir, ← uses_putDir]
  exact h.count _

theorem Inv.later {ts : List Task} (h : Inv s owed (ts ++ loose)) :
    Inv (s.later ts) owed loose := by
  refine { h with count := fun t => ?_ }
  have hcount := h.count t
  rw [← append_assoc] at hcount
  exact hcount

theorem Inv.later_all (h : Inv s owed loose) : Inv (s.later loose) owed [] := by
  apply Inv.later
  rw [append_nil]
  exact h

theorem Inv.perm {todo : List Task} (h : Inv s owed loose)
    (hperm : (s.todo ++ loose).Perm (todo ++ loose')) :
    Inv { s with todo := todo } owed loose' := by
  refine { h with count := fun t => ?_ }
  have hcount := h.count t
  rw [hperm.count_eq] at hcount
  exact hcount

theorem Inv.take (h : Inv s [] []) (ht : t ∈ s.todo) :
    Inv { s with todo := s.todo.erase t } [] [t] := by
  apply h.perm
  rw [append_nil]
  exact (perm_cons_erase ht).trans (perm_append_singleton t _).symm

theorem count_closeFile (fs : List File) (f : File) :
    (fs.map Task.closeFile).count (.closeFile f) = fs.count f :=
  count_map_of_injective _ _ (fun _ _ h => Task.closeFile.inj h) f

theorem openTasks_of_count {T' : Tables File} (fs : List File) {gs : List File}
    (h : ∀ f, descriptors T f + fs.count f = descriptors T' f + gs.count f) (t : Task) :
    openTasks T t + (fs.map Task.closeFile).count t =
      openTasks T' t + (gs.map Task.closeFile).count t := by
  cases t with
  | closeFile f =>
      rw [count_closeFile, count_closeFile]
      exact h f
  | putDir d side => simp [openTasks, count_eq_zero.2]

theorem Inv.retable (h : Inv s owed loose)
    (hT : ∀ t, openTasks T t + loose'.count t + owed.count t =
      openTasks s.tables t + loose.count t + owed'.count t) :
    Inv { s with tables := T } owed' loose' := by
  refine { h with count := fun t => ?_ }
  have hcount := h.count t
  have hT := hT t
  unfold held uses at hcount ⊢
  rw [count_append] at hcount ⊢
  dsimp only
  omega

theorem lookup_of_refsOf (h : 0 < s.refsOf (.sock x)) : ∃ k, s.socks.lookup x = some k := by
  rw [refsOf] at h
  cases hk : s.socks.lookup x with
  | none =>
      rw [hk] at h
      cases h
  | some k => exact ⟨k, rfl⟩

theorem Endpoint.of_setSock (h : (s.setSock x k').Endpoint c) :
    c ∈ k'.state.conns ∨ s.Endpoint c := by
  obtain ⟨y, l, hl, hc⟩ := h
  obtain ⟨-, rfl⟩ | ⟨-, hl⟩ := lookup_insert_cases hl
  · exact .inl hc
  · exact .inr ⟨y, l, hl, hc⟩

theorem Inv.setSock {o : Option Sock} (h : Inv s owed loose) (ho : s.socks.lookup x = o)
    (hpos : 0 < k'.refs) (hpaired : (s.setSock x k').Paired)
    (hcount : ∀ t, k'.held x t + owed'.count t +
        (o.elim 0 (·.state.tasks.count t) + loose.count t) =
      o.elim 0 (·.held x t) + owed.count t + (k'.state.tasks.count t + loose'.count t)) :
    Inv (s.setSock x k') owed' loose' where
  count t := by
    subst ho
    have hold := h.count t
    have hcount := hcount t
    have hheld := s.socks.weigh_insert_add x k' fun x k => k.held x t
    have huses := s.socks.weigh_insert_add x k' fun _ k => k.state.tasks.count t
    unfold held uses at hold ⊢
    rw [count_append] at hold ⊢
    simp only [Unix.setSock]
    omega
  whole := h.whole
  alive y l hl := by
    obtain ⟨-, rfl⟩ | ⟨-, hl⟩ := lookup_insert_cases hl
    · exact hpos
    · exact h.alive y l hl
  paired := hpaired
  bound b hb := by
    by_cases hb' : b.2 = x
    · exact ⟨k', by rw [hb', Unix.setSock, lookup_insert]⟩
    · rw [Unix.setSock, lookup_insert_ne hb']
      exact h.bound b hb
  fault := h.fault

theorem Paired.setSock (h : s.Paired) (hk : s.socks.lookup x = some k)
    (hconns : ∀ c ∈ k'.state.conns, c ∈ k.state.conns) : (s.setSock x k').Paired := by
  apply h.mono
  intro c hc
  obtain hmem | hend := hc.of_setSock
  · exact ⟨x, k, hk, hconns c hmem⟩
  · exact hend

theorem Inv.setRefs (h : Inv s owed loose) (hk : s.socks.lookup x = some k) (hpos : 0 < n)
    (hcount : ∀ t, (if t = .closeFile (.sock x) then n else 0) + owed'.count t + loose.count t =
      k.held x t + owed.count t + loose'.count t) :
    Inv (s.setSock x { k with refs := n }) owed' loose' := by
  refine h.setSock hk hpos (h.paired.setSock hk fun _ hc => hc) fun t => ?_
  have hcount := hcount t
  change (if _ then n else 0) + _ + (k.state.tasks.count t + _) =
    _ + _ + (k.state.tasks.count t + _)
  dsimp only [elim_some]
  omega

theorem Inv.setState {st : UState} (h : Inv s owed loose) (hk : s.socks.lookup x = some k)
    (hpaired : (s.setSock x { k with state := st }).Paired)
    (hperm : (k.state.tasks ++ loose).Perm (st.tasks ++ loose')) :
    Inv (s.setSock x { k with state := st }) owed loose' := by
  refine h.setSock hk (h.alive x k hk) hpaired fun t => ?_
  have hcount := hperm.count_eq t
  rw [count_append, count_append] at hcount
  exact congrArg (k.held x t + owed.count t + ·) hcount

theorem Inv.setState_same {st : UState} (h : Inv s [] []) (hk : s.socks.lookup x = some k)
    (hconns : st.conns = k.state.conns) : Inv (s.setSock x { k with state := st }) [] [] := by
  refine h.setState hk (h.paired.setSock hk fun c hc => ?_) ?_
  · rw [← hconns]
    exact hc
  · rw [UState.tasks, UState.tasks, hconns]

theorem usockDup_of_apart (hk : s.socks.lookup x = some k) (hapart : s.connOf x = none) :
    s.usockDup x = s.setSock x { k with refs := k.refs + 1 } := by
  rw [usockDup, hk]
  rw [connOf, hk] at hapart
  obtain ⟨state, refs⟩ := k
  cases state with
  | connected conn => cases hapart
  | _ => rfl

theorem connOf_setSock (hk : s.socks.lookup x = some k) (y : Nat) :
    (s.setSock x { k with refs := n }).connOf y = s.connOf y := by
  by_cases hy : y = x
  · rw [hy, connOf, connOf, Unix.setSock, lookup_insert, hk]
    obtain ⟨state, refs⟩ := k
    cases state <;> rfl
  · rw [connOf, connOf, Unix.setSock, lookup_insert_ne hy]

theorem othersHeld_update (others : Nat → Nat) (o n : Nat) (t : Task) :
    othersHeld (update others o n) t +
        (if t = .closeFile (.other o) then others o else 0) =
      othersHeld others t + if t = .closeFile (.other o) then n else 0 := by
  by_cases ht : t = .closeFile (.other o)
  · rw [ht, if_pos rfl, if_pos rfl, othersHeld, othersHeld, update_self]
    exact Nat.add_comm ..
  · rw [if_neg ht, if_neg ht]
    unfold othersHeld
    split
    · next o' => rw [update_of_ne fun heq => ht (by rw [heq])]
    · rfl

theorem Inv.setOther {o : Nat} (h : Inv s owed loose)
    (hcount : ∀ t, (if t = .closeFile (.other o) then n else 0) + owed'.count t + loose.count t =
      (if t = .closeFile (.other o) then s.others o else 0) + owed.count t + loose'.count t) :
    Inv (s.setOther o n) owed' loose' := by
  refine { h with count := fun t => ?_ }
  have hold := h.count t
  have hcount := hcount t
  have hheld := othersHeld_update s.others o n t
  unfold held uses at hold ⊢
  rw [count_append] at hold ⊢
  dsimp only [Unix.setOther]
  omega

structure Copyable (s : Unix) (f : File) : Prop where
  apart : Apart s f
  alive : 0 < s.refsOf f

/-- `n + 1` references instead of `n` pay for one `dup` that is owed. -/
theorem slack_dup (n : Nat) (t u : Task) :
    (if u = t then n + 1 else 0) + owed.count u + loose.count u =
      (if u = t then n else 0) + (t :: owed).count u + loose.count u := by
  by_cases hu : u = t
  · rw [hu, if_pos rfl, if_pos rfl, count_cons_self]
    omega
  · rw [if_neg hu, if_neg hu, count_cons_of_ne (Ne.symm hu)]

theorem Inv.fileDup (h : Inv s (.closeFile f :: owed) loose) (hf : s.Copyable f) :
    Inv (s.fileDup f) owed loose := by
  cases f with
  | sock x =>
      obtain ⟨k, hk⟩ := lookup_of_refsOf hf.alive
      rw [Unix.fileDup, usockDup_of_apart hk hf.apart]
      exact h.setRefs hk (Nat.succ_pos _) (slack_dup k.refs _)
  | other o =>
      have hne : s.others o ≠ 0 := Nat.pos_iff_ne_zero.1 hf.alive
      rw [Unix.fileDup, if_neg hne]
      exact h.setOther (slack_dup (s.others o) _)

theorem Copyable.fileDup {g : File} (hf : s.Copyable f) (hg : s.Copyable g) :
    (s.fileDup f).Copyable g := by
  cases f with
  | sock x =>
      obtain ⟨k, hk⟩ := lookup_of_refsOf hf.alive
      rw [Unix.fileDup, usockDup_of_apart hk hf.apart]
      cases g with
      | sock y =>
          refine ⟨(connOf_setSock hk y).trans hg.apart, ?_⟩
          rw [refsOf, Unix.setSock]
          by_cases hy : y = x
          · rw [hy, lookup_insert]
            exact Nat.succ_pos _
          · rw [lookup_insert_ne hy]
            exact hg.alive
      | other o => exact ⟨trivial, hg.alive⟩
  | other o =>
      have hne : s.others o ≠ 0 := Nat.pos_iff_ne_zero.1 hf.alive
      rw [Unix.fileDup, if_neg hne]
      cases g with
      | sock y => exact ⟨hg.apart, hg.alive⟩
      | other o' =>
          refine ⟨trivial, ?_⟩
          change 0 < update s.others o (s.others o + 1) o'
          by_cases ho : o' = o
          · rw [ho, update_self]
            exact Nat.succ_pos _
          · rw [update_of_ne ho]
            exact hg.alive

theorem Inv.fileDups (h : Inv s (fs.map .closeFile ++ owed) loose)
    (hfs : ∀ f ∈ fs, s.Copyable f) : Inv (fs.foldl Unix.fileDup s) owed loose := by
  induction fs generalizing s with
  | nil => exact h
  | cons f fs ih =>
      have hf : s.Copyable f := hfs f mem_cons_self
      apply ih (h.fileDup hf)
      intro g hg
      exact hf.fileDup (hfs g (mem_cons_of_mem f hg))

theorem Copyable.congr (h : s.Copyable f) (hs : s'.socks = s.socks) (ho : s'.others = s.others) :
    s'.Copyable f := by
  obtain ⟨tables, socks, dirs, bound, others, todo, fault⟩ := s'
  subst hs ho
  cases f with
  | sock x | other o => exact ⟨h.apart, h.alive⟩

theorem Inv.hooks
    (h : Inv s ((hs.filterMap Hook.duped).map .closeFile)
      ((hs.filterMap Hook.closed).map .closeFile))
    (hdup : ∀ f ∈ hs.filterMap Hook.duped, s.Copyable f) : Inv (hs.foldl runHook s) [] [] := by
  induction hs generalizing s with
  | nil => exact h
  | cons hook hs ih =>
      cases hook with
      | dup f =>
          have hf : s.Copyable f := hdup f mem_cons_self
          apply ih (h.fileDup hf)
          intro g hg
          exact hf.fileDup (hdup g (mem_cons_of_mem f hg))
      | close f =>
          have hnext : Inv (s.later [.closeFile f]) _
              ((hs.filterMap Hook.closed).map .closeFile) := Inv.later h
          exact ih hnext fun g hg => (hdup g hg).congr rfl rfl

theorem Inv.apply {src : File → Prop} (h : Inv s [] []) (hT : Told s.tables T hs src)
    (hdup : ∀ f, src f → s.Copyable f) : Inv (s.apply (T, hs)) [] [] := by
  apply Inv.hooks (h.retable (openTasks_of_count _ hT.balanced))
  exact fun f hf => (hdup f (hT.duped f hf)).congr rfl rfl

/-- `n - 1` references instead of `n` pay for one `close` that is loose. -/
theorem slack_close (hn : 0 < n) (t u : Task) :
    (if u = t then n - 1 else 0) + owed.count u + (t :: loose).count u =
      (if u = t then n else 0) + owed.count u + loose.count u := by
  by_cases hu : u = t
  · rw [hu, if_pos rfl, if_pos rfl, count_cons_self]
    omega
  · rw [if_neg hu, if_neg hu, count_cons_of_ne (Ne.symm hu)]

theorem Inv.eraseSock (h : Inv s owed (.closeFile (.sock x) :: loose))
    (hk : s.socks.lookup x = some k) (hlast : k.refs = 1) :
    Inv { s with socks := s.socks.erase x, bound := s.bound.filter fun b => b.2 ≠ x } owed
      (k.state.tasks ++ loose) where
  count t := by
    have hold := h.count t
    have hheld := weigh_of_lookup (w := fun x k => k.held x t) hk
    have huses := weigh_of_lookup (w := fun _ k => k.state.tasks.count t) hk
    have hslack : _ + owed.count t + _ = k.held x t + _ + loose.count t :=
      slack_close (h.alive x k hk) (.closeFile (.sock x)) t
    rw [hlast, Nat.sub_self, ite_self] at hslack
    unfold held uses at hold ⊢
    rw [count_append] at hold
    rw [count_append, count_append]
    dsimp only
    omega
  whole := h.whole
  alive y l hl := h.alive y l (lookup_erase_some hl).2
  paired := by
    apply h.paired.mono
    rintro c ⟨y, l, hl, hc⟩
    exact ⟨y, l, (lookup_erase_some hl).2, hc⟩
  bound b hb := by
    obtain ⟨hb, hne⟩ := mem_filter.1 hb
    rw [lookup_erase_ne (of_decide_eq_true hne)]
    exact h.bound b hb
  fault := h.fault

theorem Inv.refsOf_pos (h : Inv s [] (.closeFile f :: loose)) : 0 < s.refsOf f := by
  have hrefs := h.refs f
  rw [count_append, count_cons_self, count_nil] at hrefs
  omega

theorem Inv.fileClose (h : Inv s [] (.closeFile f :: loose)) :
    Inv (s.fileClose f) [] loose := by
  have hpos := h.refsOf_pos
  cases f with
  | sock x =>
      obtain ⟨k, hk⟩ := lookup_of_refsOf hpos
      have hrefs : 0 < k.refs := h.alive x k hk
      rw [Unix.fileClose, unixPut, hk]
      dsimp only
      split
      · next hlast => exact (h.eraseSock hk (by omega)).later
      · next hmore => exact h.setRefs hk (Nat.pos_of_ne_zero hmore) (slack_close hrefs _)
  | other o =>
      have hne : s.others o ≠ 0 := Nat.pos_iff_ne_zero.1 hpos
      rw [Unix.fileClose, if_neg hne]
      exact h.setOther (slack_close hpos _)

theorem opens_of_lookup (hq : s.dirs.lookup d = some q) (side : Side) :
    s.opens d side = q.opened side := by
  rw [opens, hq]
  rfl

theorem Inv.setDir {o : Option UnixDir} (h : Inv s owed loose) (ho : s.dirs.lookup d = o)
    (hwhole : ∃ r, q'.Whole r)
    (hcount : ∀ t, q'.held d t + (o.elim 0 (·.tasks.count t) + loose.count t) =
      o.elim 0 (·.held d t) + (q'.tasks.count t + loose'.count t)) :
    Inv (s.setDir d q') owed loose' where
  count t := by
    subst ho
    have hold := h.count t
    have hcount := hcount t
    have hheld := s.dirs.weigh_insert_add d q' fun d q => q.held d t
    have huses := s.dirs.weigh_insert_add d q' fun _ q => q.tasks.count t
    unfold held uses at hold ⊢
    rw [count_append] at hold ⊢
    simp only [Unix.setDir]
    omega
  whole d' l hl := by
    obtain ⟨-, rfl⟩ | ⟨-, hl⟩ := lookup_insert_cases hl
    · exact hwhole
    · exact h.whole d' l hl
  alive := h.alive
  paired := h.paired
  bound := h.bound
  fault := h.fault

theorem Inv.setRing {r' : Pipe} (h : Inv s [] []) (hq : s.dirs.lookup d = some q)
    (hr : q.ring = some r) (hsame : r.SameEnds r') :
    Inv (s.setDir d { q with ring := some r' }) [] [] := by
  apply h.setDir hq
  · obtain ⟨r₀, hwhole⟩ := h.whole d q hq
    have hr₀ : r₀ = r := some.inj (hwhole.ring.symm.trans hr)
    subst hr₀
    refine ⟨r', rfl, ?_, ?_, ?_, ?_⟩
    · exact hwhole.refs.trans hsame.refs.symm
    · rw [hsame.refs, hsame.opened, hsame.opened]
      exact hwhole.ends
    · intro side
      rw [hsame.opened]
      exact hwhole.single side
    · rw [hsame.refs]
      exact hwhole.pos
  · intro t
    have hheld : UnixDir.held d { q with ring := some r' } t = q.held d t := by
      cases t with
      | closeFile f => rfl
      | putDir d' side =>
          rw [UnixDir.held, UnixDir.held, UnixDir.opened, UnixDir.opened, hr]
          exact congrArg (if d' = d then · else 0) (hsame.opened side)
    rw [hheld]
    rfl

theorem Inv.setBatches (h : Inv s owed loose) (hq : s.dirs.lookup d = some q)
    (hperm : (q.tasks ++ loose).Perm (batches.flatten.map .closeFile ++ loose')) :
    Inv (s.setDir d { q with batches := batches }) owed loose' := by
  obtain ⟨r, hwhole⟩ := h.whole d q hq
  refine h.setDir hq ⟨r, hwhole.of_batches⟩ fun t => ?_
  have hcount := hperm.count_eq t
  rw [count_append, count_append] at hcount
  have hheld : UnixDir.held d { q with batches := batches } t = q.held d t := by
    cases t <;> rfl
  rw [hheld]
  exact congrArg (q.held d t + ·) hcount

theorem Inv.enqueue (h : Inv s owed (fs.map .closeFile)) (hq : s.dirs.lookup d = some q) :
    Inv (s.setDir d { q with batches := q.batches ++ [fs] }) owed [] := by
  apply h.setBatches hq
  rw [flatten_append, flatten_singleton, map_append, append_nil]
  rfl

theorem Inv.dequeue (h : Inv s owed []) (hq : s.dirs.lookup d = some q)
    (hbatches : q.batches = fs :: batches) :
    Inv (s.setDir d { q with batches := batches }) owed (fs.map .closeFile) := by
  apply h.setBatches hq
  rw [UnixDir.tasks, hbatches, append_nil, flatten_cons, map_append]
  exact perm_append_comm

theorem Inv.whole_of_opens (h : Inv s owed loose) (hpos : 0 < s.opens d side) :
    ∃ q r, s.dirs.lookup d = some q ∧ q.Whole r ∧ 0 < r.opened side := by
  cases hq : s.dirs.lookup d with
  | none =>
      rw [opens, hq] at hpos
      cases hpos
  | some q =>
      obtain ⟨r, hwhole⟩ := h.whole d q hq
      rw [opens_of_lookup hq, hwhole.opened] at hpos
      exact ⟨q, r, rfl, hwhole, hpos⟩

theorem Inv.opened_pos (h : Inv s [] (.putDir d side :: loose)) :
    ∃ q r, s.dirs.lookup d = some q ∧ q.Whole r ∧ 0 < r.opened side := by
  apply h.whole_of_opens
  rw [h.ends, count_append, count_cons_self]
  omega

/-- The last reference to a direction is dropped: what is in flight becomes loose. -/
theorem Inv.eraseDir (h : Inv s owed (.putDir d side :: loose)) (hq : s.dirs.lookup d = some q)
    (hwhole : q.Whole r) (hlast : r.refs = 1) (hside : 0 < r.opened side) :
    Inv { s with dirs := s.dirs.erase d } owed (q.tasks ++ loose) := by
  refine { h with count := fun t => ?_, whole := fun d' l hl => ?_ }
  · have hold := h.count t
    have hheld := weigh_of_lookup (w := fun d q => q.held d t) hq
    have huses := weigh_of_lookup (w := fun _ q => q.tasks.count t) hq
    rw [hwhole.last hlast hside t] at hheld
    unfold held uses at hold ⊢
    rw [← singleton_append, count_append, count_append] at hold
    rw [count_append, count_append]
    dsimp only
    omega
  · exact h.whole d' l (lookup_erase_some hl).2

theorem UnixDir.Whole.closeEp {r' : Pipe} (h : q.Whole r) (hside : 0 < r.opened side)
    (hopened : ∀ side', r'.opened side' = r.opened side' - if side' = side then 1 else 0)
    (t : Task) :
    UnixDir.held d { q with ring := some r', refs := n } t + [Task.putDir d side].count t =
      q.held d t := by
  cases t with
  | closeFile f => rfl
  | putDir d' side' =>
      rw [UnixDir.held, UnixDir.held, h.opened]
      by_cases hd : d' = d
      · rw [hd, if_pos rfl, if_pos rfl]
        change r'.opened side' + _ = _
        rw [hopened]
        cases side <;> cases side' <;> simp <;> omega
      · rw [if_neg hd, if_neg hd, Nat.zero_add]
        exact count_eq_zero.2 fun hmem => hd (Task.putDir.inj (mem_singleton.1 hmem)).1

theorem Inv.unixDirPut (h : Inv s [] (.putDir d side :: loose)) :
    Inv (s.unixDirPut d side) [] loose := by
  obtain ⟨q, r, hq, hwhole, hside⟩ := h.opened_pos
  rw [Unix.unixDirPut, hq]
  dsimp only
  rw [hwhole.ring]
  dsimp only
  split
  · next hlast =>
      have hpos := hwhole.pos
      rw [hwhole.refs] at hlast
      exact (h.eraseDir hq hwhole (by omega) hside).later
  · next hmore =>
      rw [hwhole.refs] at hmore
      obtain ⟨r', hr', hrefs, hopened⟩ := Pipe.closeEp_of_more side hmore
      rw [hr']
      have hends := hwhole.ends
      apply h.setDir hq
      · refine ⟨r', rfl, ?_, ?_, ?_, by omega⟩
        · rw [hrefs, ← hwhole.refs]
        · rw [hrefs, hopened, hopened]
          cases side <;> simp <;> omega
        · intro side'
          rw [hopened]
          exact (Nat.sub_le _ _).trans (hwhole.single side')
      · intro t
        have hheld := UnixDir.Whole.closeEp (n := q.refs - 1) (d := d) hwhole hside hopened t
        rw [← singleton_append, count_append]
        change _ + (q.tasks.count t + _) = q.held d t + (q.tasks.count t + _)
        omega

theorem Inv.doTask (h : Inv s [] (t :: loose)) : Inv (s.doTask t) [] loose := by
  cases t with
  | closeFile f => exact h.fileClose
  | putDir d side => exact h.unixDirPut

theorem Inv.newSock (st : UState) (h : Inv s [] st.tasks)
    (hx : s.socks.lookup x = none) (hT : ∀ f, descriptors T f =
      descriptors s.tables f + [File.sock x].count f)
    (hpaired : (Unix.setSock { s with tables := T } x ⟨st, 1⟩).Paired) :
    Inv (Unix.setSock { s with tables := T } x ⟨st, 1⟩) [] [] := by
  have howed : Inv { s with tables := T } [.closeFile (.sock x)] st.tasks := by
    refine h.retable fun t => ?_
    have hopen : openTasks T t = _ + [Task.closeFile (.sock x)].count t :=
      openTasks_of_count [] hT t
    rw [hopen, count_nil]
    omega
  refine howed.setSock hx Nat.one_pos hpaired fun t => ?_
  have hslack : (if t = _ then 1 else 0) + ([] : List Task).count t + st.tasks.count t =
      _ + [Task.closeFile (.sock x)].count t + st.tasks.count t := slack_dup 0 _ t
  rw [ite_self, count_nil] at hslack
  change (if _ then 1 else 0) + 0 + (0 + st.tasks.count t) = 0 + _ + (st.tasks.count t + 0)
  omega

section Calls

variable (h : Inv s [] [])
include h

theorem Inv.unixSocketCreate {slots : Bool} (hx : s.socks.lookup x = none) :
    Inv (s.unixSocketCreate p x kmalloc slots).1 [] [] := by
  fun_cases Unix.unixSocketCreate s p x kmalloc slots with
  | case3 _ T fd hinst =>
      refine Inv.newSock .unbound h hx (descriptors_install hinst) (h.paired.mono fun c hc => ?_)
      exact hc.of_setSock.resolve_left not_mem_nil
  | _ => exact h

theorem Inv.unixBind {name : List UInt8} (hk : s.socks.lookup x = some k) :
    Inv (s.unixBind x name).1 [] [] := by
  fun_cases Unix.unixBind s x name with
  | case1 hnone => cases hk.symm.trans hnone
  | case5 l hl hstate =>
      have hbound : Inv { s with bound := (name, x) :: s.bound } [] [] := by
        refine { h with bound := fun b hb => ?_ }
        cases hb with
        | head => exact ⟨l, hl⟩
        | tail _ hb => exact h.bound b hb
      refine hbound.setState_same hl ?_
      rw [not_not.1 hstate]
      rfl
  | _ => exact h

theorem Inv.unixListen {backlog : Int} (hk : s.socks.lookup x = some k) :
    Inv (s.unixListen x backlog).1 [] [] := by
  fun_cases Unix.unixListen s x backlog with
  | case1 hnone => cases hk.symm.trans hnone
  | case2 _ l hl hstate | case3 _ l hl _ _ hstate =>
      refine h.setState_same hl ?_
      rw [hstate]
      rfl
  | case4 => exact h

end Calls

theorem Inv.newDir (h : Inv s owed loose) (hd : s.dirs.lookup d = none) :
    Inv (s.setDir d unixDirAlloc) owed (.putDir d .reader :: .putDir d .writer :: loose) := by
  apply h.setDir hd
  · refine ⟨Pipe.initEnds, rfl, rfl, rfl, fun side => ?_, Nat.two_pos⟩
    cases side <;> exact le_rfl
  · intro t
    have hheld : unixDirAlloc.held d t = [Task.putDir d .reader, .putDir d .writer].count t := by
      cases t with
      | closeFile f => rfl
      | putDir d' side =>
          rw [UnixDir.held]
          by_cases hd : d' = d
          · rw [hd, if_pos rfl]
            cases side <;> simp [unixDirAlloc, UnixDir.opened, Pipe.opened, Pipe.initEnds]
          · rw [if_neg hd]
            simp [Ne.symm hd]
    change _ + (0 + _) = 0 + (0 + ([Task.putDir d .reader, .putDir d .writer] ++ loose).count t)
    rw [hheld, count_append]
    omega

theorem Inv.endpoint_dir (h : Inv s [] loose) (hc : s.Endpoint c) (side : Side) :
    ∃ q r, s.dirs.lookup (c.dir side) = some q ∧ q.Whole r ∧ r.opened side = 1 := by
  obtain ⟨x, k, hk, hmem⟩ := hc
  have hpos : 0 < s.users (c.dir side) side := by
    refine Nat.lt_of_lt_of_le ?_ (le_weigh hk)
    exact count_pos_iff.2 (mem_map.2 ⟨c, hmem, rfl⟩)
  have hopens : 0 < s.opens (c.dir side) side := by
    rw [h.ends]
    omega
  obtain ⟨q, r, hq, hwhole, hopen⟩ := h.whole_of_opens hopens
  exact ⟨q, r, hq, hwhole, Nat.le_antisymm (hwhole.single side) hopen⟩

theorem Inv.dir_ne (h : Inv s [] loose) (hc : s.Endpoint c)
    (hd : s.dirs.lookup d = none) (side : Side) : c.dir side ≠ d := by
  rintro rfl
  obtain ⟨q, r, hq, -⟩ := h.endpoint_dir hc side
  rw [hd] at hq
  cases hq

/-- A connection with new directions is paired with none of the old ones. -/
theorem Inv.new_apart (h : Inv s [] loose) (ha : s.dirs.lookup a = none)
    (hb : s.dirs.lookup b = none) (hc : s.Endpoint c) : b = c.rd ↔ c.wr = a :=
  iff_of_false (fun heq => h.dir_ne hc hb .reader heq.symm) (h.dir_ne hc ha .writer)

theorem Endpoint.of_queued {srv blMax : Nat} {l : Sock} {c' : UnixConn}
    (hl : s.socks.lookup srv = some l) (hstate : l.state = .listening backlog blMax)
    (h : (s.setSock srv { l with state := .listening (backlog ++ [c]) blMax }).Endpoint c') :
    c' = c ∨ s.Endpoint c' := by
  obtain hmem | hend := h.of_setSock
  · obtain hmem | hmem := mem_append.1 hmem
    · exact .inr ⟨srv, l, hl, by rw [hstate]; exact hmem⟩
    · exact .inl (mem_singleton.1 hmem)
  · exact .inr hend

theorem Inv.queueConn {srv blMax : Nat} {l : Sock} (h : Inv s [] (c.close ++ loose))
    (hl : s.socks.lookup srv = some l) (hstate : l.state = .listening backlog blMax)
    (hfit : ∀ c', s.Endpoint c' → (c.wr = c'.rd ↔ c'.wr = c.rd)) :
    Inv (s.setSock srv { l with state := .listening (backlog ++ [c]) blMax }) [] loose := by
  refine h.setState hl (h.paired.add (fun c' => Endpoint.of_queued hl hstate) hfit) ?_
  rw [hstate]
  change (backlog.flatMap _ ++ _).Perm ((backlog ++ [c]).flatMap _ ++ _)
  rw [flatMap_append, append_assoc, flatMap_singleton]

theorem Inv.connectSock (h : Inv s [] c.close) (hk : s.socks.lookup x = some k)
    (hconns : k.state.conns = []) (hfit : ∀ c', s.Endpoint c' → (c.wr = c'.rd ↔ c'.wr = c.rd)) :
    Inv (s.setSock x { k with state := .connected c }) [] [] := by
  refine h.setState hk (h.paired.add (fun c' hc' => ?_) hfit) ?_
  · exact hc'.of_setSock.imp_left mem_singleton.1
  · rw [UState.tasks, hconns]
    exact .refl _

section Connect

variable (h : Inv s [] []) (hab : a ≠ b) (ha : s.dirs.lookup a = none) (hb : s.dirs.lookup b = none)
include h hab ha hb

theorem Inv.newDirs : Inv ((s.setDir a unixDirAlloc).setDir b unixDirAlloc) []
    (UnixConn.close ⟨a, b⟩ ++ UnixConn.close ⟨b, a⟩) := by
  have hb' : (s.setDir a unixDirAlloc).dirs.lookup b = none := by
    rw [Unix.setDir, lookup_insert_ne hab.symm]
    exact hb
  have hnew := (h.newDir ha).newDir hb'
  have hperm : [Task.putDir b .reader, .putDir b .writer, .putDir a .reader, .putDir a .writer].Perm
      (UnixConn.close ⟨a, b⟩ ++ UnixConn.close ⟨b, a⟩) := by
    rw [perm_iff_count]
    intro t
    simp only [UnixConn.close, cons_append, nil_append, count_cons, count_nil]
    omega
  exact hnew.perm (hperm.append_left _)

theorem Inv.unixConnectTo {srv : Nat} (hk : s.socks.lookup x = some k) (hconns : k.state.conns = [])
    (hlisten : ∀ bl n, k.state ≠ .listening bl n) (hsrv : ∃ l, s.socks.lookup srv = some l) :
    Inv (s.unixConnectTo x srv a b k kmalloc).1 [] [] := by
  obtain ⟨l, hl⟩ := hsrv
  fun_cases Unix.unixConnectTo s x srv a b k kmalloc with
  | case1 hnone => cases hl.symm.trans hnone
  | case4 l' hl' backlog blMax hstate =>
      cases hl.symm.trans hl'
      have hne : x ≠ srv := by
        rintro rfl
        cases hk.symm.trans hl
        exact hlisten _ _ hstate
      have hqueued := (h.newDirs hab ha hb).queueConn hl hstate fun c => h.new_apart ha hb
      refine hqueued.connectSock ?_ hconns fun c hc => ?_
      · rw [Unix.setSock, lookup_insert_ne hne]
        exact hk
      · obtain rfl | hold := Endpoint.of_queued (s := s) hl hstate hc
        · exact ⟨fun _ => rfl, fun _ => rfl⟩
        · exact h.new_apart hb ha hold
  | _ => exact h

theorem Inv.unixConnect {name : List UInt8} (hk : s.socks.lookup x = some k) :
    Inv (s.unixConnect x name a b kmalloc).1 [] [] := by
  fun_cases Unix.unixConnect s x name a b kmalloc with
  | case1 hnone => cases hk.symm.trans hnone
  | case5 l hl e he hconn hlisten =>
      refine h.unixConnectTo hab ha hb hl ?_ hlisten (h.bound e (mem_of_find?_eq_some he))
      cases hst : l.state with
      | unbound | bound => rfl
      | listening bl n => exact absurd hst (hlisten bl n)
      | connected c => exact absurd hst (hconn c)
  | _ => exact h

end Connect

section Calls

variable (h : Inv s [] [])
include h

theorem Inv.unqueueConn {blMax : Nat} (hk : s.socks.lookup x = some k)
    (hstate : k.state = .listening (c :: backlog) blMax) :
    Inv (s.setSock x { k with state := .listening backlog blMax }) [] c.close := by
  refine h.setState hk (h.paired.setSock hk fun c' hc' => ?_) ?_
  · rw [hstate]
    exact mem_cons_of_mem c hc'
  · rw [hstate, append_nil]
    exact perm_append_comm

theorem Inv.unixAccept4 {y : Nat} {slots : Bool} (hk : s.socks.lookup x = some k)
    (hy : s.socks.lookup y = none) : Inv (s.unixAccept4 p x y nonblock kmalloc slots).1 [] [] := by
  fun_cases Unix.unixAccept4 s p x y nonblock kmalloc slots with
  | case1 hnone => cases hk.symm.trans hnone
  | case3 l hl c backlog blMax hstate | case4 l hl c backlog blMax hstate =>
      exact (h.unqueueConn hl hstate).later_all
  | case5 l hl c backlog blMax hstate _ _ T fd hinst =>
      have hne : y ≠ x := by
        rintro rfl
        cases hl.symm.trans hy
      have hold : ∀ c' ∈ c :: backlog, s.Endpoint c' := fun c' hc' =>
        ⟨x, l, hl, by rw [hstate]; exact hc'⟩
      refine Inv.newSock (.connected c) ?_ ?_ (descriptors_install hinst)
        (h.paired.mono fun c' hc' => ?_)
      · change Inv _ [] (c.close ++ [])
        rw [append_nil]
        exact h.unqueueConn hl hstate
      · exact (lookup_insert_ne hne).trans hy
      · obtain hmem | hend := hc'.of_setSock
        · exact hold c' (mem_cons.2 (.inl (mem_singleton.1 hmem)))
        · obtain hmem | hend := Endpoint.of_setSock hend
          · exact hold c' (mem_cons_of_mem c hmem)
          · exact hend
  | _ => exact h

end Calls

theorem Endpoint.of_connOf (h : s.connOf x = some c) : s.Endpoint c := by
  unfold connOf at h
  split at h
  · next conn refs hk =>
      cases h
      exact ⟨x, _, hk, mem_singleton.2 rfl⟩
  · cases h

theorem Inv.ringAt (h : Inv s [] []) (hc : s.connOf x = some c) (side : Side) :
    ∃ r batches refs, s.dirs.lookup (c.dir side) = some ⟨some r, batches, refs⟩ := by
  obtain ⟨⟨ring, batches, refs⟩, r, hq, hwhole, -⟩ := h.endpoint_dir (Endpoint.of_connOf hc) side
  cases hwhole.ring
  exact ⟨r, batches, refs, hq⟩

theorem mem_namedFiles {t : FdTable File} {fds : List Nat}
    (h : f ∈ (namedFiles t fds).1) : ∃ fd ∈ fds, t.lookup fd = some f := by
  induction fds with
  | nil => cases h
  | cons fd fds ih =>
      rw [namedFiles] at h
      split at h
      · cases h
      · next g hg =>
          cases h with
          | head => exact ⟨fd, mem_cons_self, hg⟩
          | tail _ h =>
              obtain ⟨fd', hfd', hf⟩ := ih h
              exact ⟨fd', mem_cons_of_mem fd hfd', hf⟩

theorem fileDup_dirs (hf : s.Copyable f) : (s.fileDup f).dirs = s.dirs := by
  cases f with
  | sock x =>
      obtain ⟨k, hk⟩ := lookup_of_refsOf hf.alive
      rw [Unix.fileDup, usockDup_of_apart hk hf.apart]
      rfl
  | other o =>
      rw [Unix.fileDup]
      split
      · rfl
      · rfl

theorem fileDups_dirs (hfs : ∀ f ∈ fs, s.Copyable f) :
    (fs.foldl Unix.fileDup s).dirs = s.dirs := by
  induction fs generalizing s with
  | nil => rfl
  | cons f fs ih =>
      have hf : s.Copyable f := hfs f mem_cons_self
      rw [foldl_cons, ih fun g hg => hf.fileDup (hfs g (mem_cons_of_mem f hg)),
        fileDup_dirs hf]

section Messages

variable (h : Inv s [] [])
include h

theorem Inv.usockRead {len : Nat} : Inv (s.usockRead x nonblock len).1 [] [] := by
  fun_cases Unix.usockRead s x nonblock len with
  | case1 => exact h
  | case2 conn hconn r batches refs hq r' pass hread =>
      have hsame := Pipe.readEp_sameEnds r nonblock len
      rw [hread] at hsame
      exact h.setRing hq rfl hsame
  | case3 conn hconn hno =>
      obtain ⟨r, batches, refs, hq⟩ := h.ringAt hconn .reader
      exact absurd hq (hno _ _ _)

theorem Inv.usockWrite {written : Nat} {rest : List UInt8} :
    Inv (s.usockWrite x nonblock written rest).1 [] [] := by
  fun_cases Unix.usockWrite s x nonblock written rest with
  | case1 => exact h
  | case2 conn hconn r batches refs hq r' pass hwrite =>
      have hsame := Pipe.writeEp_sameEnds r nonblock written rest
      rw [hwrite] at hsame
      exact h.setRing hq rfl hsame
  | case3 conn hconn hno =>
      obtain ⟨r, batches, refs, hq⟩ := h.ringAt hconn .writer
      exact absurd hq (hno _ _ _)

theorem Inv.dupNamed {fds : List Nat}
    (hcopy : ∀ fd ∈ fds, ∀ f ∈ (tableOf s.tables p).lookup fd, s.Copyable f)
    (hfs : (namedFiles (tableOf s.tables p) fds).1 = fs) :
    Inv (fs.foldl Unix.fileDup s) [] (fs.map .closeFile) ∧
      (fs.foldl Unix.fileDup s).dirs = s.dirs := by
  have hall : ∀ f ∈ fs, s.Copyable f := by
    intro f hf
    obtain ⟨fd, hfd, hlook⟩ := mem_namedFiles (hfs ▸ hf)
    exact hcopy fd hfd f hlook
  have howed : Inv s (fs.map .closeFile) (fs.map .closeFile) :=
    h.retable (T := s.tables) fun f => by
      rw [count_nil]
      omega
  refine ⟨Inv.fileDups ?_ hall, fileDups_dirs hall⟩
  rw [append_nil]
  exact howed

theorem Inv.unixScmSend {fds : List Nat}
    (hcopy : ∀ fd ∈ fds, ∀ f ∈ (tableOf s.tables p).lookup fd, s.Copyable f) :
    Inv (s.unixScmSend p x fds kmalloc).1 [] [] := by
  fun_cases Unix.unixScmSend s p x fds kmalloc with
  | case5 conn hconn _ _ _ fs all hnamed =>
      exact (h.dupNamed hcopy (congrArg Prod.fst hnamed)).1.later_all
  | case6 conn hconn _ _ _ fs all hnamed _ _ hnone =>
      obtain ⟨r, batches, refs, hq⟩ := h.ringAt hconn .writer
      rw [(h.dupNamed hcopy (congrArg Prod.fst hnamed)).2] at hnone
      cases hq.symm.trans hnone
  | case7 conn hconn _ _ _ fs all hnamed _ _ q hq =>
      exact (h.dupNamed hcopy (congrArg Prod.fst hnamed)).1.enqueue hq
  | _ => exact h

end Messages

theorem descriptors_installFiles (T : Tables File) (p slots : Nat) (fs : List File) (f : File) :
    descriptors (installFiles T p slots fs).1 f + (installFiles T p slots fs).2.count f =
      descriptors T f + fs.count f := by
  induction fs generalizing T slots with
  | nil => cases slots <;> rfl
  | cons g fs ih =>
      cases slots with
      | zero => rfl
      | succ slots =>
          rw [installFiles]
          split
          · rfl
          · next T' fd hinst =>
              rw [ih, descriptors_install hinst, Nat.add_assoc, ← count_append]
              rfl

section Steps

variable (h : Inv s [] [])
include h

theorem Inv.unixScmRecv {room slots : Nat} : Inv (s.unixScmRecv p x room slots).1 [] [] := by
  fun_cases Unix.unixScmRecv s p x room slots with
  | case2 conn hconn hnone =>
      obtain ⟨r, batches, refs, hq⟩ := h.ringAt hconn .reader
      cases hq.symm.trans hnone
  | case4 conn hconn q hq fs batches hbatches => exact (h.dequeue hq hbatches).later_all
  | case5 conn hconn q hq fs batches hbatches _ _ T rest hinst =>
      refine Inv.later_all (Inv.retable (h.dequeue hq hbatches)
        (openTasks_of_count rest fun f => ?_))
      have hcount := descriptors_installFiles s.tables p slots fs f
      rw [hinst] at hcount
      exact hcount
  | _ => exact h

theorem Inv.refsOf_open {fd : Nat} (hfd : (tableOf s.tables p).lookup fd = some f) :
    0 < s.refsOf f := by
  have hpos := descriptors_pos hfd
  have hrefs := h.refs f
  rw [count_nil] at hrefs
  omega

theorem Inv.copyable {fd : Nat} (hfd : (tableOf s.tables p).lookup fd = some f)
    (hapart : Apart s f) : s.Copyable f :=
  ⟨hapart, h.refsOf_open hfd⟩

/-- A call on the socket of a descriptor. -/
theorem Inv.onSock {fd : Nat} {call : Nat → Unix} (hs : (sockAt s p fd).map call = some s')
    (hcall : ∀ x k, s.socks.lookup x = some k → Inv (call x) [] []) : Inv s' [] [] := by
  obtain ⟨x, hx, rfl⟩ := map_eq_some_iff.1 hs
  unfold sockAt at hx
  split at hx
  · next y hy =>
      cases hx
      obtain ⟨k, hk⟩ := lookup_of_refsOf (h.refsOf_open hy)
      exact hcall x k hk
  · cases hx

theorem Inv.step {act : UnixAct} (hun : Unshared s act) (hs : unixStep s act = some s') :
    Inv s' [] [] := by
  cases act with
  | socket p x kmalloc slots =>
      obtain ⟨hx, ⟨⟩⟩ := ite_none_right_eq_some.1 hs
      exact h.unixSocketCreate hx
  | bind p fd name => exact h.onSock hs fun x k hk => h.unixBind hk
  | listen p fd backlog => exact h.onSock hs fun x k hk => h.unixListen hk
  | connect p fd name a b kmalloc =>
      obtain ⟨⟨hab, ha, hb⟩, hs⟩ := ite_none_right_eq_some.1 hs
      exact h.onSock hs fun x k hk => h.unixConnect hab ha hb hk
  | accept p fd y nonblock kmalloc slots =>
      obtain ⟨hy, hs⟩ := ite_none_right_eq_some.1 hs
      exact h.onSock hs fun x k hk => h.unixAccept4 hk hy
  | read p fd nonblock len => exact h.onSock hs fun x _ _ => h.usockRead
  | write p fd nonblock written rest => exact h.onSock hs fun x _ _ => h.usockWrite
  | sendFds p fd fds kmalloc =>
      exact h.onSock hs fun x _ _ => h.unixScmSend fun fd hfd f hf =>
        h.copyable hf (hun fd hfd f hf)
  | recvFds p fd room slots => exact h.onSock hs fun x _ _ => h.unixScmRecv
  | openOther p o slots =>
      obtain ⟨ho, ⟨⟩⟩ := ite_none_right_eq_some.1 hs
      split
      · exact h
      · next T fd hinst =>
          have howed : Inv { s with tables := T } [.closeFile (.other o)] [] :=
            h.retable (openTasks_of_count [] (descriptors_install hinst))
          refine howed.setOther fun t => ?_
          change _ = (if t = .closeFile (.other o) then s.others o else 0) + _ + _
          rw [ho]
          exact slack_dup 0 _ t
  | dup p oldfd start slots =>
      cases hs
      exact h.apply dupFd_told fun f hold => h.copyable hold (hun f hold)
  | dup2 p oldfd newfd slots =>
      cases hs
      exact h.apply fdTableDup2_told fun f ⟨hne, hold⟩ => h.copyable hold (hun hne f hold)
  | fork p c =>
      obtain ⟨hc, ⟨⟩⟩ := ite_none_right_eq_some.1 hs
      refine h.apply (fdTableDup_told hc) fun f hmem => ?_
      obtain ⟨fd, hfd⟩ := mem_values.1 hmem
      exact h.copyable hfd (hun f hmem)
  | close p fd =>
      cases hs
      exact h.apply fdTableClose_told nofun
  | exit p =>
      cases hs
      exact h.apply fdTableFree_told nofun
  | work t =>
      obtain ⟨ht, ⟨⟩⟩ := ite_none_right_eq_some.1 hs
      exact (h.take ht).doTask

end Steps

end Unix

theorem Reach.inv {s : Unix} (hr : unixSystem.Reach Unshared s) : s.Inv [] [] :=
  System.Reach.invariant (·.Inv [] []) hr (fun _ h => Unix.Inv.init h)
    fun _ _ _ h hun hs => h.step hun hs

end NeoKernel.UnixSock
