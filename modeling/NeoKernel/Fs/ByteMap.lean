import NeoKernel.Fs.Ranges
import NeoKernel.Lib.Update

/-!
# Record locks refine a map of bytes

`ByteOp` is what a call means for the set of locked bytes. `byteSystem` runs the table of
`flock.c` and the set of bytes side by side, and the table always describes the set.
-/
namespace NeoKernel.Flock
open Lib Function Option

inductive ByteOp where
  | lock (q : Request)
  | unlock (vn pid s e : Nat)
  | close (vn pid : Nat)
  | exit (pid : Nat)
  | nothing

def Request.bytes (q : Request) : Set Held :=
  {h | h.vn = q.vn ∧ h.pid = q.pid ∧ h.type = q.type ∧ q.start ≤ h.byte ∧ h.byte ≤ q.stop}

/-- Another process's lock on a byte of the request rules it out. -/
def Opposes (h : Held) (q : Request) : Prop :=
  h.vn = q.vn ∧ h.pid ≠ q.pid ∧ (q.start ≤ h.byte ∧ h.byte ≤ q.stop) ∧
    (h.type = .wrlck ∨ q.type = .wrlck)

open Classical in
/-- The effect of a call on the locked bytes. A lock that another process's lock rules out
is refused, or waits, and changes nothing. -/
noncomputable def applyBytes (S : Set Held) : ByteOp → Set Held
  | .lock q => if ∃ h ∈ S, Opposes h q then S else without S q.vn q.pid q.start q.stop ∪ q.bytes
  | .unlock vn pid s e => without S vn pid s e
  | .close vn pid => {h ∈ S | ¬(h.vn = vn ∧ h.pid = pid)}
  | .exit pid => {h ∈ S | h.pid ≠ pid}
  | .nothing => S

def byteOp (st : Locks) : FlockAct → ByteOp
  | .fcntl pid f cmd fl =>
      match flockArgs f cmd fl with
      | .error _ => .nothing
      | .ok (vn, type, s, e) =>
          match cmd, type with
          | .getlk, _ => .nothing
          | _, none => .unlock vn pid s e
          | _, some t => .lock ⟨vn, pid, t, s, e⟩
  | .resume k interrupted => if interrupted then .nothing else .lock (st.waiters k).request
  | .close pid vn => .close vn pid
  | .exit pid => .exit pid

noncomputable def byteSystem : System (Locks × Set Held) FlockAct where
  init p := p = (bootLocks, ∅)
  step p a := (flockStep p.1 a).map fun r => (r.1, applyBytes p.2 (byteOp p.1 a))

def lacksRecords (recs : Recs) : ByteOp → Bool
  | .lock q =>
      (conflictLocked recs q.vn q.pid q.type q.start q.stop).isNone &&
        (takeLocked recs q).any fun r => decide (r.2 = .failed .enolck)
  | .unlock vn pid s e =>
      (unlockLocked recs vn pid s e).any fun r => decide (r.2 = .failed .enolck)
  | _ => false

def Supplied (p : Locks × Set Held) (a : FlockAct) : Prop :=
  lacksRecords p.1.recs (byteOp p.1 a) = false

instance (p : Locks × Set Held) (a : FlockAct) : Decidable (Supplied p a) :=
  inferInstanceAs (Decidable (_ = _))

structure Tidy (recs : Recs) : Prop where
  apart : Apart recs
  maximal : ∀ vn pid, Maximal recs vn pid

variable {st st' : Locks} {recs recs' : Recs} {vn pid s e : Nat} {q : Request} {o : Outcome}
  {fl : KFlock} {i : Slot} {p : Locks × Set Held}

def Request.Ok (q : Request) : Prop := q.start ≤ q.stop ∧ q.stop ≤ endOfFile

theorem i64_bounds (x : Int) : -2 ^ 63 ≤ i64 x ∧ i64 x < 2 ^ 63 := by
  unfold i64
  have h1 := Int.le_bmod (x := x) (m := 2 ^ 64) (by decide)
  have h2 := Int.bmod_lt (x := x) (m := 2 ^ 64) (by decide)
  omega

theorem i64_neg {x : Int} (h : x < 0) (hx : -2 ^ 63 ≤ x) : 0 < i64 (-x) ∨ i64 (-x) = -2 ^ 63 := by
  unfold i64 Int.bmod
  dsimp only
  split
  · omega
  · omega

theorem rangeFrom_ok {base : Int} (h : rangeFrom fl base = .ok (s, e)) : s ≤ e ∧ e ≤ endOfFile := by
  unfold rangeFrom at h
  dsimp only at h
  have hbase := i64_bounds (base + i64 fl.lStart)
  have hlen := i64_bounds fl.lLen
  generalize i64 (base + i64 fl.lStart) = start at h hbase
  generalize i64 fl.lLen = len at h hlen
  have hstart : (if len < 0 then i64 (start + len) else start) < 2 ^ 63 := by
    split
    · exact (i64_bounds _).2
    · exact hbase.2
  have hlen : -2 ^ 63 = (if len < 0 then i64 (-len) else len) ∨
      0 ≤ (if len < 0 then i64 (-len) else len) ∧
        (if len < 0 then i64 (-len) else len) < 2 ^ 63 := by
    split
    · next hneg =>
        have := i64_neg hneg hlen.1
        have := i64_bounds (-len)
        omega
    · omega
  generalize (if len < 0 then i64 (start + len) else start) = start' at h hstart
  generalize (if len < 0 then i64 (-len) else len) = len' at h hlen
  split at h
  · cases h
  · next hpos =>
      injection h with h
      injection h with hs he
      subst hs
      subst he
      unfold u64 endOfFile
      split
      · omega
      · omega

theorem rangeOf_ok {f : File} (h : rangeOf f fl = .ok (s, e)) : s ≤ e ∧ e ≤ endOfFile := by
  unfold rangeOf at h
  split at h
  · exact rangeFrom_ok h
  · split at h
    · exact rangeFrom_ok h
    · split at h
      · exact rangeFrom_ok h
      · cases h

/-- Where `l_start` counts from. -/
def KFlock.base (fl : KFlock) (f : File) : Option Int :=
  if fl.lWhence = 0 then some 0
  else if fl.lWhence = 1 then some f.position
  else if fl.lWhence = 2 then some f.size
  else none

/-- The bytes that are meant: `l_len` from `base + l_start` on, or before it if `l_len` is negative,
and all from there on if it is 0. -/
def KFlock.bytes (fl : KFlock) (base : Int) : Set Int :=
  if fl.lLen = 0 then { b | base + fl.lStart ≤ b }
  else if 0 < fl.lLen then { b | base + fl.lStart ≤ b ∧ b < base + fl.lStart + fl.lLen }
  else { b | base + fl.lStart + fl.lLen ≤ b ∧ b < base + fl.lStart }

/-- Where nothing overflows, the range is that of the bytes that are meant, and a request that means
a byte before the file is refused. -/
theorem rangeOf_bytes {f : File} {base : Int} (hbase : fl.base f = some base)
    (hfits : ∀ x ∈ [base, fl.lStart, fl.lLen, base + fl.lStart, base + fl.lStart + min fl.lLen 0],
      i64 x = x) :
    match rangeOf f fl with
    | .ok (s, e) => ∀ b : Nat, b ≤ endOfFile → (s ≤ b ∧ b ≤ e ↔ (b : Int) ∈ fl.bytes base)
    | .error err => err = .einval ∧ ∃ b ∈ fl.bytes base, b < 0 := by
  simp only [List.mem_cons, List.not_mem_nil, or_false, forall_eq_or_imp, forall_eq] at hfits
  obtain ⟨hb, hstart, hlen, hsum, hend⟩ := hfits
  have hrange : rangeOf f fl = rangeFrom fl base := by
    unfold KFlock.base at hbase
    unfold rangeOf
    split_ifs at hbase ⊢ <;> cases hbase
    · rfl
    · rw [hb]
    · rw [hb]
  have hsumb := i64_bounds (base + fl.lStart)
  have hlenb := i64_bounds fl.lLen
  rw [hrange]
  unfold rangeFrom KFlock.bytes
  rw [hstart, hlen, hsum]
  rw [hsum] at hsumb
  rw [hlen] at hlenb
  generalize base + fl.lStart = start at *
  generalize fl.lLen = len at *
  dsimp only
  rcases lt_trichotomy len 0 with hneg | rfl | hpos
  · rw [min_eq_left hneg.le] at hend
    rw [if_pos hneg, if_pos hneg, hend, if_neg hneg.ne, if_neg hneg.not_gt]
    by_cases hbefore : start + len < 0
    · rw [if_pos hbefore]
      exact ⟨rfl, start + len, ⟨le_refl _, by omega⟩, hbefore⟩
    · rw [if_neg hbefore]
      have hminus : i64 (-len) = -len := by
        unfold i64 Int.bmod
        dsimp only
        split <;> omega
      rw [hminus, if_neg (by omega)]
      intro b hb
      unfold u64
      rw [Set.mem_ofPred_eq]
      omega
  · rw [if_neg (lt_irrefl 0), if_neg (lt_irrefl 0), if_pos rfl, if_pos rfl]
    by_cases hbefore : start < 0
    · rw [if_pos hbefore]
      exact ⟨rfl, start, le_refl start, hbefore⟩
    · rw [if_neg hbefore]
      intro b hb
      unfold u64
      rw [Set.mem_ofPred_eq]
      omega
  · rw [if_neg hpos.not_gt, if_neg hpos.not_gt, if_neg hpos.ne', if_pos hpos, if_neg hpos.ne']
    by_cases hbefore : start < 0
    · rw [if_pos hbefore]
      exact ⟨rfl, start, ⟨le_refl _, by omega⟩, hbefore⟩
    · rw [if_neg hbefore]
      intro b hb
      unfold u64
      rw [Set.mem_ofPred_eq]
      omega

theorem conflictLocked_eq_none (h : Apart recs) (hq : q.Ok) :
    conflictLocked recs q.vn q.pid q.type q.start q.stop = none ↔
      ∀ b ∈ described recs, ¬Opposes b q := by
  unfold conflictLocked
  rw [List.find?_eq_none]
  constructor
  · rintro hnone b ⟨i, hl, hv, hp, ht⟩ ⟨bv, bp, hin, hty⟩
    refine hnone i (mem_slots i) ?_
    have hov : overlaps (recs i).start (recs i).stop q.start q.stop = true :=
      (overlaps_iff (h.bounds i hl.1).1 hq.1).2 ⟨b.byte, hl.2, hin⟩
    simp only [LockRec.forbids, hov, hl.1, hv, bv, hp, ht, Bool.and_eq_true, Bool.or_eq_true,
      beq_iff_eq, bne_iff_ne, ne_eq, bp, not_false_eq_true, and_self, true_and, beq_self_eq_true]
    exact hty
  · intro hno i _ hforbids
    simp only [LockRec.forbids, Bool.and_eq_true, Bool.or_eq_true, beq_iff_eq, bne_iff_ne,
      ne_eq] at hforbids
    obtain ⟨⟨⟨⟨hu, hv⟩, hp⟩, hov⟩, hty⟩ := hforbids
    obtain ⟨b, hin, hin'⟩ := (overlaps_iff (h.bounds i hu).1 hq.1).1 hov
    exact hno ⟨(recs i).vn, (recs i).pid, b, (recs i).type⟩ ⟨i, ⟨hu, hin⟩, rfl, rfl, rfl⟩
      ⟨hv, hp, hin', hty⟩

theorem LockType.eq_rdlck {t : LockType} (h : t ≠ .wrlck) : t = .rdlck := by
  cases t with
  | rdlck => rfl
  | wrlck => exact absurd rfl h

theorem Carved.others (hc : Carved recs recs' q.vn q.pid q.start q.stop)
    (hno : ∀ b ∈ described recs, ¬Opposes b q) {x : Slot} {b : Nat} (hx : (recs' x).Locks b)
    (hv : (recs' x).vn = q.vn) (hb : q.record.Covers b) :
    (recs' x).pid ≠ q.pid ∧ (recs' x).type = .rdlck ∧ q.type = .rdlck := by
  have hmem : (⟨q.vn, (recs' x).pid, b, (recs' x).type⟩ : Held) ∈ described recs' :=
    ⟨x, hx, hv, rfl, rfl⟩
  rw [hc.bytes] at hmem
  have hpid : (recs' x).pid ≠ q.pid := fun hp => hmem.2 ⟨rfl, hp, hb⟩
  have htype : ¬((recs' x).type = .wrlck ∨ q.type = .wrlck) :=
    fun ht => hno _ hmem.1 ⟨rfl, hpid, hb, ht⟩
  exact ⟨hpid, LockType.eq_rdlck fun h => htype (.inl h), LockType.eq_rdlck fun h => htype (.inr h)⟩

theorem Carved.grant_apart (hc : Carved recs recs' q.vn q.pid q.start q.stop) (hq : q.Ok)
    (hno : ∀ b ∈ described recs, ¬Opposes b q) (i : Slot) :
    Apart (update recs' i q.record) where
  bounds x hx := by
    by_cases hxi : x = i
    · rw [hxi, update_self]
      exact hq
    · rw [update_of_ne hxi] at hx ⊢
      exact hc.apart.bounds x hx
  own x y b hx hy hv hp := by
    refine unique_update (p := fun r : LockRec => r.Locks b ∧ r.vn = _ ∧ r.pid = _)
      (fun z z' hz hz' => ?_)
      (fun hr z _ hz => ?_) ⟨hx, hv, hp⟩ ⟨hy, rfl, rfl⟩
    · exact hc.apart.own z z' b hz.1 hz'.1 (hz.2.1.trans hz'.2.1.symm) (hz.2.2.trans hz'.2.2.symm)
    · exact (hc.others hno hz.1 (hz.2.1.trans hr.2.1.symm) hr.1.2).1 (hz.2.2.trans hr.2.2.symm)
  shared x y b hx hy hv hp := by
    by_cases hxi : x = i
    · rw [hxi, update_self] at hx hv hp ⊢
      by_cases hyi : y = i
      · rw [hyi, update_self] at hp
        exact absurd rfl hp
      · rw [update_of_ne hyi] at hy hv hp
        exact (hc.others hno hy hv.symm hx.2).2.2
    · rw [update_of_ne hxi] at hx hv hp ⊢
      by_cases hyi : y = i
      · rw [hyi, update_self] at hy hv hp
        exact (hc.others hno hx hv hy.2).2.1
      · rw [update_of_ne hyi] at hy hv hp
        exact hc.apart.shared x y b hx hy hv hp

theorem described_grant (hi : (recs i).inUse = false) :
    described (update recs i q.record) = described recs ∪ q.bytes := by
  ext b
  constructor
  · rintro ⟨x, hx⟩
    by_cases hxi : x = i
    · rw [hxi, update_self] at hx
      obtain ⟨hl, hv, hp, ht⟩ := hx
      exact .inr ⟨hv.symm, hp.symm, ht.symm, hl.2⟩
    · rw [update_of_ne hxi] at hx
      exact .inl ⟨x, hx⟩
  · rintro (⟨x, hx⟩ | ⟨hv, hp, ht, hl⟩)
    · have hxi : x ≠ i := by
        rintro rfl
        rw [hx.1.1] at hi
        cases hi
      refine ⟨x, ?_⟩
      rwa [update_of_ne hxi]
    · refine ⟨i, ?_⟩
      rw [update_self]
      exact ⟨⟨rfl, hl⟩, hv.symm, hp.symm, ht.symm⟩

theorem Maximal.grant {v p : Nat} (h : Maximal recs v p) (hne : ¬(v = q.vn ∧ p = q.pid)) :
    Maximal (update recs i q.record) v p := by
  have hold : ∀ x, (update recs i q.record x).mine v p = true → x ≠ i := by
    rintro x hx rfl
    rw [update_self] at hx
    obtain ⟨-, hv, hp⟩ := LockRec.mine_iff.1 hx
    exact hne ⟨hv.symm, hp.symm⟩
  intro x y hx hy ht
  have hxi := hold x hx
  have hyi := hold y hy
  rw [update_of_ne hxi] at hx ht ⊢
  rw [update_of_ne hyi] at hy ht ⊢
  exact h x y hx hy ht

theorem takeLocked_spec (h : Tidy recs) (hq : q.Ok)
    (hno : ∀ b ∈ described recs, ¬Opposes b q) :
    ∃ r, takeLocked recs q = some r ∧ (r.2 ≠ .failed .enolck → Tidy r.1 ∧
      described r.1 = without (described recs) q.vn q.pid q.start q.stop ∪ q.bytes) := by
  unfold takeLocked
  split
  · exact ⟨_, rfl, fun hne => absurd rfl hne⟩
  · rcases carveLocked_spec q.vn q.pid h.apart hq.1 with hr | ⟨carved, hr, hc⟩
    · rw [hr]
      exact ⟨_, rfl, fun hne => absurd rfl hne⟩
    · rw [hr]
      refine ⟨_, rfl, ?_⟩
      dsimp only
      split
      · exact fun hne => absurd rfl hne
      · next i halloc =>
          have hi := recAllocLocked_free halloc
          have hgrant := hc.grant_apart hq hno i
          have hmerged := mergeLoop_merged q.vn q.pid flockMax hgrant
          refine fun _ => ⟨⟨hmerged.apart, fun v p => ?_⟩, ?_⟩
          · by_cases hvp : v = q.vn ∧ p = q.pid
            · rw [hvp.1, hvp.2]
              exact mergeLocked_maximal hgrant q.vn q.pid
            · exact hmerged.others v p hvp ((hc.maximal v p (h.maximal v p)).grant hvp)
          · rw [← hc.bytes, ← described_grant hi]
            exact hmerged.bytes

theorem unlockLocked_spec (vn pid : Nat) (h : Tidy recs) (hse : s ≤ e) :
    ∃ r, unlockLocked recs vn pid s e = some r ∧ (r.2 ≠ .failed .enolck → Tidy r.1 ∧
      described r.1 = without (described recs) vn pid s e) := by
  unfold unlockLocked
  rcases carveLocked_spec vn pid h.apart hse with hr | ⟨carved, hr, hc⟩
  · rw [hr]
    exact ⟨_, rfl, fun hne => absurd rfl hne⟩
  · rw [hr]
    exact ⟨_, rfl, fun _ => ⟨⟨hc.apart, fun v p => hc.maximal v p (h.maximal v p)⟩, hc.bytes⟩⟩

def WaitersOk (st : Locks) : Prop := ∀ k, (st.waiters k).request.Ok

/-- What a call on the table `recs` leaves behind: a result, proper waiters and, if no record
was lacking, a table that describes the bytes of the byte-wise call. -/
def Refines (recs : Recs) (op : ByteOp) (result : Option (Locks × Outcome)) : Prop :=
  ∃ r, result = some r ∧ WaitersOk r.1 ∧ (lacksRecords recs op = false →
    Tidy r.1.recs ∧ described r.1.recs = applyBytes (described recs) op)

theorem Refines.same {op : ByteOp} (h : Tidy st.recs) (hw : WaitersOk st)
    (hop : applyBytes (described st.recs) op = described st.recs) (o : Outcome) :
    Refines st.recs op (some (st, o)) :=
  ⟨_, rfl, hw, fun _ => ⟨h, hop.symm⟩⟩

theorem lockLocked_refines (h : Tidy st.recs) (hw : WaitersOk st) (hq : q.Ok) (wait : Bool) :
    Refines st.recs (.lock q) (lockLocked st wait q) := by
  unfold lockLocked
  have hiff := conflictLocked_eq_none h.apart hq
  split
  · next hnone =>
      have hno := hiff.1 hnone
      obtain ⟨r, hr, hspec⟩ := takeLocked_spec h hq hno
      rw [hr]
      refine ⟨_, rfl, hw, fun hlack => ?_⟩
      have hfine : r.2 ≠ .failed .enolck := by
        simpa [lacksRecords, hnone, hr] using hlack
      rw [applyBytes, if_neg fun ⟨b, hb, hopp⟩ => hno b hb hopp]
      exact hspec hfine
  · next c hsome =>
      have hopp : ∃ b ∈ described st.recs, Opposes b q := by
        by_contra hno
        rw [hiff.2 fun b hb hopp => hno ⟨b, hb, hopp⟩] at hsome
        cases hsome
      have hop : applyBytes (described st.recs) (.lock q) = described st.recs := if_pos hopp
      split
      · exact .same h hw hop _
      · split
        · exact .same h hw hop _
        · split
          · exact .same h hw hop _
          · next k _ =>
              refine ⟨_, rfl, fun k' => ?_, fun _ => ⟨h, hop.symm⟩⟩
              dsimp only
              by_cases hk : k' = k
              · rw [hk, update_self]
                exact hq
              · rw [update_of_ne hk]
                exact hw k'

theorem unlockLocked_refines (h : Tidy st.recs) (hw : WaitersOk st) (hse : s ≤ e) :
    Refines st.recs (.unlock vn pid s e)
      ((unlockLocked st.recs vn pid s e).map fun r => ({ st with recs := r.1 }, r.2)) := by
  obtain ⟨r, hr, hspec⟩ := unlockLocked_spec vn pid h hse
  rw [hr]
  refine ⟨_, rfl, hw, fun hlack => hspec ?_⟩
  simpa [lacksRecords, hr] using hlack

theorem flockArgs_ok {f : File} {cmd : Cmd} {type : Option LockType}
    (h : flockArgs f cmd fl = .ok (vn, type, s, e)) : s ≤ e ∧ e ≤ endOfFile := by
  unfold flockArgs at h
  split at h
  · split at h
    · cases h
    · cases hr : rangeOf f fl with
      | error er =>
          rw [hr] at h
          cases h
      | ok range =>
          rw [hr] at h
          cases h
          exact rangeOf_ok hr
  · cases h

theorem flockFcntl_refines (h : Tidy st.recs) (hw : WaitersOk st) (pid : Nat) (f : File)
    (cmd : Cmd) (fl : KFlock) :
    Refines st.recs (byteOp st (.fcntl pid f cmd fl)) (flockFcntl st pid f cmd fl) := by
  unfold flockFcntl
  cases hargs : flockArgs f cmd fl with
  | error er =>
      simp only [byteOp, hargs]
      exact .same h hw rfl _
  | ok args =>
      obtain ⟨vn, type, s, e⟩ := args
      have hse := flockArgs_ok hargs
      simp only [byteOp, hargs]
      cases cmd with
      | getlk =>
          cases type with
          | none | some t => exact .same h hw rfl _
      | setlk =>
          cases type with
          | none => exact unlockLocked_refines h hw hse.1
          | some t =>
              exact lockLocked_refines h hw (show Request.Ok ⟨vn, pid, t, s, e⟩ from hse) false
      | setlkw =>
          cases type with
          | none => exact unlockLocked_refines h hw hse.1
          | some t =>
              exact lockLocked_refines h hw (show Request.Ok ⟨vn, pid, t, s, e⟩ from hse) true

theorem flockResume_refines (h : Tidy st.recs) (hw : WaitersOk st) {k : WaitSlot}
    (hk : (st.waiters k).inUse = true) (interrupted : Bool) :
    Refines st.recs (byteOp st (.resume k interrupted)) (flockResume st k interrupted) := by
  have hw' : WaitersOk (clearWaiter st k) := by
    intro k'
    unfold clearWaiter
    dsimp only
    by_cases hk' : k' = k
    · rw [hk', update_self]
      exact hw k
    · rw [update_of_ne hk']
      exact hw k'
  unfold flockResume
  simp only [hk, Bool.not_true, Bool.false_eq_true, if_false, byteOp]
  cases interrupted with
  | true => exact ⟨_, rfl, hw', fun _ => ⟨h, rfl⟩⟩
  | false =>
      exact lockLocked_refines (show Tidy (clearWaiter st k).recs from h) hw' (hw k) true

def releaseWhere (drop : LockRec → Bool) (recs : Recs) : Recs := fun i =>
  if drop (recs i) then { recs i with inUse := false } else recs i

theorem releaseWhere_inUse {drop : LockRec → Bool} (h : (releaseWhere drop recs i).inUse = true) :
    drop (recs i) = false ∧ releaseWhere drop recs i = recs i := by
  unfold releaseWhere at h ⊢
  split at h
  · cases h
  · next hd => exact ⟨by simpa using hd, if_neg hd⟩

theorem Tidy.releaseWhere (h : Tidy recs) (drop : LockRec → Bool) :
    Tidy (releaseWhere drop recs) := by
  have hw : Within recs (Flock.releaseWhere drop recs) id := by
    refine ⟨fun i hi => ?_, fun i j hs hij => absurd hs hij⟩
    have hkeep := (releaseWhere_inUse hi).2
    rw [hkeep] at hi ⊢
    exact ⟨hi, ⟨rfl, rfl, rfl⟩, le_rfl, (h.apart.bounds i hi).1, le_rfl⟩
  exact ⟨hw.apart h.apart, fun vn pid => hw.maximal h.apart (h.maximal vn pid)⟩

theorem described_releaseWhere (drop : LockRec → Bool) (gone : Held → Prop)
    (hdrop : ∀ r : LockRec, ∀ b ∈ r.bytes, drop r = true ↔ gone b) :
    described (releaseWhere drop recs) = {b ∈ described recs | ¬gone b} := by
  ext b
  constructor
  · rintro ⟨i, hi⟩
    obtain ⟨hd, hkeep⟩ := releaseWhere_inUse hi.1.1
    rw [hkeep] at hi
    refine ⟨⟨i, hi⟩, fun hg => ?_⟩
    rw [(hdrop _ b hi).2 hg] at hd
    cases hd
  · rintro ⟨⟨i, hi⟩, hg⟩
    refine ⟨i, ?_⟩
    unfold releaseWhere
    rw [if_neg fun hd => hg ((hdrop _ b hi).1 hd)]
    exact hi

theorem flockReleaseVnode_refines (h : Tidy st.recs) (hw : WaitersOk st) (vn pid : Nat) :
    Refines st.recs (.close vn pid) (some (flockReleaseVnode st vn pid, .done)) := by
  refine ⟨_, rfl, hw, fun _ => ⟨h.releaseWhere fun r => r.mine vn pid, ?_⟩⟩
  refine described_releaseWhere (fun r => r.mine vn pid) (fun b => b.vn = vn ∧ b.pid = pid)
    fun r b hb => ?_
  rw [LockRec.mine_iff, hb.2.1, hb.2.2.1]
  exact ⟨fun hm => hm.2, fun hg => ⟨hb.1.1, hg⟩⟩

theorem flockReleasePid_refines (h : Tidy st.recs) (hw : WaitersOk st) (pid : Nat) :
    Refines st.recs (.exit pid) (some (flockReleasePid st pid, .done)) := by
  refine ⟨_, rfl, hw, fun _ => ⟨h.releaseWhere fun r => r.inUse && r.pid == pid, ?_⟩⟩
  refine described_releaseWhere (fun r => r.inUse && r.pid == pid) (fun b => b.pid = pid)
    fun r b hb => ?_
  simp [hb.1.1, hb.2.2.1]

structure Agree (p : Locks × Set Held) : Prop where
  tidy : Tidy p.1.recs
  waiters : WaitersOk p.1
  bytes : described p.1.recs = p.2

theorem Agree.boot : Agree (bootLocks, ∅) where
  tidy := by
    refine ⟨⟨fun i hi => ?_, fun i j b hi => ?_, fun i j b hi => ?_⟩, fun vn pid i j hi => ?_⟩
    · cases hi
    · cases hi.1
    · cases hi.1
    · cases (LockRec.mine_iff.1 hi).1
  waiters _ := ⟨Nat.le_refl 0, Nat.zero_le _⟩
  bytes := by
    refine Set.eq_empty_of_forall_notMem fun b ⟨i, hi⟩ => ?_
    cases hi.1.1

theorem flockStep_refines (h : Agree p) {a : FlockAct} (hs : (flockStep p.1 a).isSome) :
    Refines p.1.recs (byteOp p.1 a) (flockStep p.1 a) := by
  cases a with
  | fcntl pid f cmd fl => exact flockFcntl_refines h.tidy h.waiters pid f cmd fl
  | resume k interrupted =>
      refine flockResume_refines h.tidy h.waiters ?_ interrupted
      by_contra hk
      rw [Bool.not_eq_true] at hk
      simp [flockStep, flockResume, hk] at hs
  | close pid vn => exact flockReleaseVnode_refines h.tidy h.waiters vn pid
  | exit pid => exact flockReleasePid_refines h.tidy h.waiters pid

theorem Agree.step {p' : Locks × Set Held} {a : FlockAct} (h : Agree p) (hok : Supplied p a)
    (hs : byteSystem.step p a = some p') : Agree p' := by
  obtain ⟨r, hr, rfl⟩ := map_eq_some_iff.1 hs
  obtain ⟨r', hr', hw, hspec⟩ := flockStep_refines h (isSome_iff_exists.2 ⟨r, hr⟩)
  obtain rfl : r' = r := some.inj (hr'.symm.trans hr)
  obtain ⟨ht, hb⟩ := hspec hok
  exact ⟨ht, hw, h.bytes ▸ hb⟩

theorem byteSystem_agree (hr : byteSystem.Reach Supplied p) : Agree p :=
  hr.invariant Agree (fun _ h => h ▸ .boot) fun _ _ _ h hok hs => h.step hok hs

theorem Tidy.exclusive (h : Tidy recs) {j : Slot} (hi : (recs i).inUse = true)
    (hj : (recs j).inUse = true) (hv : (recs i).vn = (recs j).vn)
    (hp : (recs i).pid ≠ (recs j).pid)
    (hov : overlaps (recs i).start (recs i).stop (recs j).start (recs j).stop = true) :
    (recs i).type = .rdlck ∧ (recs j).type = .rdlck := by
  obtain ⟨b, bi, bj⟩ := (overlaps_iff (h.apart.bounds i hi).1 (h.apart.bounds j hj).1).1 hov
  exact ⟨h.apart.shared i j b ⟨hi, bi⟩ ⟨hj, bj⟩ hv hp,
    h.apart.shared j i b ⟨hj, bj⟩ ⟨hi, bi⟩ hv.symm hp.symm⟩

theorem Tidy.separate (h : Tidy recs) {j : Slot} (hij : i ≠ j) (hi : (recs i).mine vn pid = true)
    (hj : (recs j).mine vn pid = true) :
    overlaps (recs i).start (recs i).stop (recs j).start (recs j).stop = false ∧
      ((recs i).type = (recs j).type → (recs i).touch (recs j) = false) := by
  have hord := h.apart.ordered hi hj hij
  have hov : overlaps (recs i).start (recs i).stop (recs j).start (recs j).stop = false := by
    simp only [overlaps, Bool.and_eq_false_iff, decide_eq_false_iff_not]
    omega
  refine ⟨hov, fun ht => ?_⟩
  have h1 := h.maximal vn pid i j hi hj ht
  have h2 := h.maximal vn pid j i hj hi ht.symm
  simp [LockRec.touch, hov, h1, h2]

/-- In every run in which the table does not run out of records, each call returns, the table
describes exactly the bytes of the byte-wise calls, different processes' ranges of one file
overlap only where both are read locks, and the ranges of one process on a file are
pairwise disjoint and maximal. -/
theorem table_refines_bytes {st : Locks} {S : Set Held}
    (hr : byteSystem.Reach Supplied (st, S)) :
    described st.recs = S ∧
      (∀ pid f cmd fl, (flockFcntl st pid f cmd fl).isSome = true) ∧
      (∀ i j, (st.recs i).inUse = true → (st.recs j).inUse = true →
        (st.recs i).vn = (st.recs j).vn → (st.recs i).pid ≠ (st.recs j).pid →
        overlaps (st.recs i).start (st.recs i).stop (st.recs j).start (st.recs j).stop = true →
        (st.recs i).type = .rdlck ∧ (st.recs j).type = .rdlck) ∧
      ∀ vn pid i j, i ≠ j → (st.recs i).mine vn pid = true → (st.recs j).mine vn pid = true →
        overlaps (st.recs i).start (st.recs i).stop (st.recs j).start (st.recs j).stop = false ∧
          ((st.recs i).type = (st.recs j).type → (st.recs i).touch (st.recs j) = false) := by
  have h := byteSystem_agree hr
  refine ⟨h.bytes, fun pid f cmd fl => ?_, fun i j hi hj hv hp hov => ?_,
    fun vn pid i j hij hi hj => ?_⟩
  · obtain ⟨r, hr, -⟩ := flockFcntl_refines h.tidy h.waiters pid f cmd fl
    exact isSome_iff_exists.2 ⟨r, hr⟩
  · exact h.tidy.exclusive hi hj hv hp hov
  · exact h.tidy.separate hij hi hj

def setlk (pid : Nat) (type : FlockType) (start len : Int) : FlockAct :=
  .fcntl pid ⟨some 7, true, 0, 0, true⟩ .setlk ⟨type, 0, start, len, 0⟩

/-- A process write-locks `[0, 99]` and unlocks `[40, 49]` again. A second one is refused a
read lock on `[45, 59]` and gets one on `[40, 44]`. The first one then turns what it has
into a read lock and extends it to the end of the file. -/
theorem table_refines_bytes_shared : ∃ p, byteSystem.Reach Supplied p ∧
    (p.1.recs 0 = ⟨true, 7, 1, .rdlck, 0, endOfFile⟩ ∧
      p.1.recs 2 = ⟨true, 7, 2, .rdlck, 40, 44⟩) ∧ described p.1.recs = p.2 :=
  System.Reach.exists_of_run_and
    [setlk 1 .wrlck 0 100, setlk 1 .unlck 40 10, setlk 2 .rdlck 45 15, setlk 2 .rdlck 40 5,
      setlk 1 .rdlck 0 40, setlk 1 .rdlck 40 0]
    (rfl : byteSystem.init (bootLocks, ∅)) (by decide +kernel)
    fun _ hr _ => (table_refines_bytes hr).1

end NeoKernel.Flock
