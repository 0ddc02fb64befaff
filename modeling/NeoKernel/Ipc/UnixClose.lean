import NeoKernel.Ipc.UnixSound

/-!
# Connections end with their last descriptor

Closing comes to an end, whatever order its pieces are done in: each piece uses up one unit of
`closing`. When nothing is left to do, what is allocated is what a descriptor leads to.
-/
namespace NeoKernel.UnixSock
open Lib Fd Ipc List Option Table

namespace Unix

variable {s : Unix} {c : UnixConn}

/-- The work left, with what it can still lead to. -/
def closing (s : Unix) : Nat :=
  s.todo.length + (s.socks.weigh fun _ k => 2 * k.state.conns.length) +
    s.dirs.weigh fun _ q => q.batches.flatten.length

theorem length_flatMap_close (conns : List UnixConn) :
    (conns.flatMap UnixConn.close).length = 2 * conns.length := by
  induction conns with
  | nil => rfl
  | cons c conns ih =>
      rw [flatMap_cons, length_append, ih, length_cons]
      change 2 + _ = _
      omega

theorem closing_unixPut {x : Nat} {k : Sock} (hk : s.socks.lookup x = some k) :
    (s.unixPut x).closing = s.closing := by
  rw [unixPut, hk]
  dsimp only
  split
  · have hsocks : (s.socks.weigh fun _ k => 2 * k.state.conns.length) =
        2 * k.state.conns.length +
          Table.weigh (fun _ k => 2 * k.state.conns.length) (s.socks.erase x) :=
      weigh_of_lookup hk
    simp only [closing, later, length_append, length_flatMap_close]
    omega
  · have hsocks : Table.weigh (fun _ k => 2 * k.state.conns.length)
        (s.socks.insert x { k with refs := k.refs - 1 }) + 2 * k.state.conns.length =
          (s.socks.weigh fun _ k => 2 * k.state.conns.length) + 2 * k.state.conns.length :=
      weigh_insert_of_lookup hk
    simp only [closing, setSock]
    omega

theorem closing_unixDirPut {d : Nat} {side : Side} {q : UnixDir} {r : Pipe}
    (hq : s.dirs.lookup d = some q) (hr : q.ring = some r) :
    (s.unixDirPut d side).closing = s.closing := by
  rw [unixDirPut, hq]
  dsimp only
  rw [hr]
  dsimp only
  split
  · have hdirs : (s.dirs.weigh fun _ q => q.batches.flatten.length) =
        q.batches.flatten.length +
          Table.weigh (fun _ q => q.batches.flatten.length) (s.dirs.erase d) :=
      weigh_of_lookup hq
    simp only [closing, later, length_append, length_map]
    omega
  · have hdirs : Table.weigh (fun _ q => q.batches.flatten.length) (s.dirs.insert d { q with
        ring := r.closeEp side.asReader side.asWriter, refs := q.refs - 1 }) +
          q.batches.flatten.length =
        (s.dirs.weigh fun _ q => q.batches.flatten.length) + q.batches.flatten.length :=
      weigh_insert_of_lookup hq
    simp only [closing, setDir]
    omega

theorem Inv.closing_doTask {t : Task} {loose : List Task} (h : Inv s [] (t :: loose)) :
    (s.doTask t).closing = s.closing := by
  cases t with
  | closeFile f =>
      cases f with
      | sock x =>
          obtain ⟨k, hk⟩ := lookup_of_refsOf h.refsOf_pos
          exact closing_unixPut hk
      | other o =>
          rw [Unix.doTask, Unix.fileClose]
          split
          · rfl
          · rfl
  | putDir d side =>
      obtain ⟨q, r, hq, hwhole, -⟩ := h.opened_pos
      exact closing_unixDirPut hq hwhole.ring

theorem Inv.work {t : Task} (h : Inv s [] []) (ht : t ∈ s.todo) :
    ∃ s', unixStep s (.work t) = some s' ∧ s'.closing + 1 = s.closing := by
  refine ⟨_, if_pos ht, ?_⟩
  rw [(h.take ht).closing_doTask]
  have hlen := length_erase_of_mem ht
  have hpos := length_pos_of_mem ht
  simp only [closing, hlen]
  omega

def Referred (s : Unix) (f : File) : Prop := 0 < descriptors s.tables f + s.inFlight f

theorem Inv.refs_rest (h : Inv s [] []) (hrest : s.todo = []) (f : File) :
    s.refsOf f = descriptors s.tables f + s.inFlight f := by
  have hrefs := h.refs f
  rw [hrest] at hrefs
  exact hrefs

theorem Inv.opens_rest (h : Inv s [] []) (hrest : s.todo = []) (d : Nat) (side : Side) :
    s.opens d side = s.users d side := by
  have hends := h.ends d side
  rw [hrest] at hends
  exact hends

theorem Inv.sock_iff (h : Inv s [] []) (hrest : s.todo = []) (x : Nat) :
    (s.socks.lookup x).isSome ↔ s.Referred (.sock x) := by
  unfold Referred
  rw [← h.refs_rest hrest]
  constructor
  · intro hx
    obtain ⟨k, hk⟩ := isSome_iff_exists.1 hx
    rw [refsOf, hk]
    exact h.alive x k hk
  · intro hpos
    obtain ⟨k, hk⟩ := lookup_of_refsOf hpos
    rw [hk]
    rfl

theorem exists_endpoint {d : Nat} {side : Side} (h : 0 < s.users d side) :
    ∃ c, s.Endpoint c ∧ c.dir side = d := by
  by_contra hnone
  have hzero : s.users d side = 0 := by
    apply weigh_eq_zero
    intro x k hk
    apply count_eq_zero.2
    intro hmem
    obtain ⟨c, hc, hd⟩ := mem_map.1 hmem
    exact hnone ⟨c, ⟨x, k, hk, hc⟩, hd⟩
  omega

theorem Inv.dir_iff (h : Inv s [] []) (hrest : s.todo = []) (d : Nat) :
    (s.dirs.lookup d).isSome ↔ ∃ c, s.Endpoint c ∧ (c.rd = d ∨ c.wr = d) := by
  constructor
  · intro hd
    obtain ⟨q, hq⟩ := isSome_iff_exists.1 hd
    obtain ⟨r, hwhole⟩ := h.whole d q hq
    have hopen : 0 < s.users d .reader ∨ 0 < s.users d .writer := by
      rw [← h.opens_rest hrest, ← h.opens_rest hrest, opens_of_lookup hq, opens_of_lookup hq,
        hwhole.opened, hwhole.opened]
      have hends := hwhole.ends
      have hpos := hwhole.pos
      omega
    obtain hreader | hwriter := hopen
    · obtain ⟨c, hc, hd⟩ := exists_endpoint hreader
      exact ⟨c, hc, .inl hd⟩
    · obtain ⟨c, hc, hd⟩ := exists_endpoint hwriter
      exact ⟨c, hc, .inr hd⟩
  · rintro ⟨c, hc, rfl | rfl⟩
    · obtain ⟨q, r, hq, -⟩ := h.endpoint_dir hc .reader
      exact isSome_iff_exists.2 ⟨q, hq⟩
    · obtain ⟨q, r, hq, -⟩ := h.endpoint_dir hc .writer
      exact isSome_iff_exists.2 ⟨q, hq⟩

theorem Inv.opens_endpoint (h : Inv s [] []) (hc : s.Endpoint c) (side : Side) :
    s.opens (c.dir side) side = 1 := by
  obtain ⟨q, r, hq, hwhole, hone⟩ := h.endpoint_dir hc side
  rw [opens_of_lookup hq, hwhole.opened]
  exact hone

theorem Inv.opens_gone (h : Inv s [] []) (hrest : s.todo = []) (hc : s.Endpoint c)
    (hgone : ¬ s.Endpoint ⟨c.wr, c.rd⟩) : s.opens c.rd .writer = 0 ∧ s.opens c.wr .reader = 0 := by
  rw [h.opens_rest hrest, h.opens_rest hrest]
  constructor
  · by_contra hopen
    obtain ⟨⟨rd, wr⟩, hc', rfl⟩ := exists_endpoint (Nat.pos_of_ne_zero hopen)
    have hrd : c.wr = rd := h.paired _ c hc' hc rfl
    exact hgone (hrd ▸ hc')
  · by_contra hopen
    obtain ⟨⟨rd, wr⟩, hc', rfl⟩ := exists_endpoint (Nat.pos_of_ne_zero hopen)
    have hwr : wr = c.rd := h.paired c _ hc hc' rfl
    exact hgone (hwr ▸ hc')

/-- What the calls on a connected socket return once its peer is gone: what is buffered and then end
of file, and `-EPIPE`. -/
structure Orphaned (s : Unix) (x : Nat) (r : Pipe) : Prop where
  read : ∀ nonblock len, len ≠ 0 →
    (s.usockRead x nonblock len).2 = .done (.ok (r.buffered.take (len % 2 ^ 32)))
  write : ∀ nonblock rest, rest ≠ [] →
    (s.usockWrite x nonblock 0 rest).2 = .done (.error .epipe)

theorem Inv.orphaned {x : Nat} (h : Inv s [] []) (hc : s.connOf x = some c)
    (hwriter : s.opens c.rd .writer = 0) (hreader : s.opens c.wr .reader = 0) :
    ∃ q r, s.dirs.lookup c.rd = some q ∧ q.ring = some r ∧ s.Orphaned x r := by
  have hend := Endpoint.of_connOf hc
  obtain ⟨⟨ring, batches, refs⟩, r, hq, hwhole, -⟩ := h.endpoint_dir hend .reader
  obtain ⟨⟨ring', batches', refs'⟩, r', hq', hwhole', -⟩ := h.endpoint_dir hend .writer
  cases hwhole.ring
  cases hwhole'.ring
  change s.dirs.lookup c.rd = _ at hq
  change s.dirs.lookup c.wr = _ at hq'
  rw [opens_of_lookup hq, hwhole.opened] at hwriter
  rw [opens_of_lookup hq', hwhole'.opened] at hreader
  refine ⟨_, r, hq, rfl, fun nonblock len hlen => ?_, fun nonblock rest hrest => ?_⟩
  · rw [Unix.usockRead, hc]
    dsimp only
    rw [hq]
    exact Pipe.readEp_of_no_writers hwriter hlen
  · rw [Unix.usockWrite, hc]
    dsimp only
    rw [hq']
    exact congrArg Prod.snd (Pipe.writeEp_of_no_readers hreader hrest)

end Unix

/-- As long as no descriptor of a connected socket is duplicated or sent: nothing freed is used, and
closing can go on until it is done. Then a socket is there exactly if a descriptor, or one in
flight, refers to it, every other object has a reference for each of these and no more, and a
direction is there exactly if an end has it. A connected socket has its own sides open, and those of
its peer are open exactly as long as the peer is there. -/
theorem unix_ends_with_last_descriptor {s : Unix} (hr : unixSystem.Reach Unshared s) :
    s.fault = false ∧
    (∀ t ∈ s.todo, ∃ s', unixStep s (.work t) = some s' ∧ s'.closing + 1 = s.closing) ∧
    (s.todo = [] →
      (∀ x, (s.socks.lookup x).isSome ↔ s.Referred (.sock x)) ∧
      (∀ o, s.others o = descriptors s.tables (.other o) + s.inFlight (.other o)) ∧
      (∀ d, (s.dirs.lookup d).isSome ↔ ∃ c, s.Endpoint c ∧ (c.rd = d ∨ c.wr = d)) ∧
      ∀ x c, s.connOf x = some c →
        (s.opens c.rd .reader = 1 ∧ s.opens c.wr .writer = 1) ∧
        (s.Endpoint ⟨c.wr, c.rd⟩ → s.opens c.rd .writer = 1 ∧ s.opens c.wr .reader = 1) ∧
        (¬ s.Endpoint ⟨c.wr, c.rd⟩ →
          (s.opens c.rd .writer = 0 ∧ s.opens c.wr .reader = 0) ∧
          ∃ q r, s.dirs.lookup c.rd = some q ∧ q.ring = some r ∧ s.Orphaned x r)) := by
  have h := Reach.inv hr
  refine ⟨h.fault, fun t ht => h.work ht, fun hrest => ?_⟩
  refine ⟨h.sock_iff hrest, fun o => h.refs_rest hrest (.other o), h.dir_iff hrest,
    fun x c hc => ?_⟩
  have hend := Unix.Endpoint.of_connOf hc
  refine ⟨⟨h.opens_endpoint hend .reader, h.opens_endpoint hend .writer⟩, fun hpeer => ?_,
    fun hgone => ?_⟩
  · exact ⟨h.opens_endpoint hpeer .writer, h.opens_endpoint hpeer .reader⟩
  · obtain ⟨hwriter, hreader⟩ := h.opens_gone hrest hend hgone
    exact ⟨⟨hwriter, hreader⟩, h.orphaned hc hwriter hreader⟩

instance (s : Unix) : (f : File) → Decidable (Apart s f)
  | .sock x => inferInstanceAs (Decidable (s.connOf x = none))
  | .other _ => isTrue trivial

instance (s : Unix) : (act : UnixAct) → Decidable (Unshared s act)
  | .dup .. => inferInstanceAs (Decidable (∀ f ∈ _, Apart s f))
  | .dup2 .. => inferInstanceAs (Decidable (_ → ∀ f ∈ _, Apart s f))
  | .fork .. => inferInstanceAs (Decidable (∀ f ∈ _, Apart s f))
  | .sendFds .. => inferInstanceAs (Decidable (∀ fd ∈ _, ∀ f ∈ _, Apart s f))
  | .socket .. | .bind .. | .listen .. | .connect .. | .accept .. | .read .. | .write ..
  | .recvFds .. | .openOther .. | .close .. | .exit .. | .work .. => isTrue trivial

def Unix.blank : Unix := ⟨∅, ∅, ∅, [], fun _ => 0, [], false⟩

theorem Unix.blank_init : UnixInit Unix.blank :=
  ⟨rfl, rfl, rfl, rfl, rfl, fun _ => rfl, fun _ => rfl⟩

/-- Process 7 listens, process 8 connects, and process 7 accepts. -/
def connection : List UnixAct :=
  [.socket 7 0 true true, .bind 7 0 [65], .listen 7 0 4, .socket 8 1 true true,
    .connect 8 0 [65] 0 1 true, .accept 7 0 2 false true true]

/-- The client sends a byte and a descriptor and closes its socket. -/
theorem unix_ends_with_last_descriptor_sent :
    ∃ s : Unix, unixSystem.Reach Unshared s ∧ s.connOf 2 = some ⟨0, 1⟩ ∧
      s.opens 0 .writer = 0 ∧ ∃ r, s.Orphaned 2 r := by
  refine System.Reach.exists_of_run_imp
    (connection ++ [.write 8 0 true 0 [42], .openOther 8 3 true, .sendFds 8 0 [1] true,
      .close 8 0, .work (.closeFile (.sock 1)), .work (.putDir 1 .reader),
      .work (.putDir 0 .writer)])
    Unix.blank_init (by decide +kernel) fun s hr (hs : s.todo = [] ∧ s.connOf 2 = some ⟨0, 1⟩ ∧
      ∀ k ∈ s.socks.values, ⟨1, 0⟩ ∉ k.state.conns) => ?_
  obtain ⟨hrest, hconn, hsocks⟩ := hs
  have hgone : ¬ s.Endpoint ⟨1, 0⟩ := by
    rintro ⟨x, k, hk, hc⟩
    exact hsocks k (mem_values.2 ⟨x, hk⟩) hc
  obtain ⟨-, -, hat⟩ := unix_ends_with_last_descriptor hr
  obtain ⟨-, -, -, hconns⟩ := hat hrest
  obtain ⟨⟨hwriter, -⟩, q, r, -, -, horphan⟩ := (hconns 2 ⟨0, 1⟩ hconn).2.2 hgone
  exact ⟨hconn, hwriter, r, horphan⟩

/-- The client duplicates its descriptor and closes both: its socket is gone, but the server's read
reports no end of file. When the server's sockets are closed as well, both directions are left,
with the descriptor that was in flight. -/
theorem copies_keep_connection :
    (∃ s : Unix, unixSystem.Reach (fun _ _ => True) s ∧ s.todo = [] ∧ s.socks.lookup 1 = none ∧
      s.connOf 2 = some ⟨0, 1⟩ ∧ s.opens 0 .writer = 1 ∧
      ((s.usockRead 2 true 1).2 matches .done (.error .eagain)) = true) ∧
    ∃ s : Unix, unixSystem.Reach (fun _ _ => True) s ∧ s.todo = [] ∧ s.socks.keys = [] ∧
      (s.dirs.lookup 0).isSome ∧ (s.dirs.lookup 1).isSome ∧ s.others 3 = 1 ∧
      descriptors s.tables (.other 3) = 0 := by
  refine ⟨?_, ?_⟩
  · exact System.Reach.exists_of_run
      (connection ++ [.dup 8 0 0 true, .close 8 0, .close 8 1, .work (.closeFile (.sock 1)),
        .work (.closeFile (.sock 1)), .work (.putDir 1 .reader), .work (.putDir 0 .writer)])
      Unix.blank_init (by decide +kernel)
  · exact System.Reach.exists_of_run
      (connection ++ [.openOther 8 3 true, .sendFds 8 0 [1] true, .dup 8 0 0 true, .exit 8,
        .work (.closeFile (.sock 1)), .work (.closeFile (.sock 1)), .work (.closeFile (.other 3)),
        .work (.putDir 1 .reader), .work (.putDir 0 .writer), .exit 7,
        .work (.closeFile (.sock 0)), .work (.closeFile (.sock 2)), .work (.putDir 0 .reader),
        .work (.putDir 1 .writer)])
      Unix.blank_init (by decide +kernel)

end NeoKernel.UnixSock
