import NeoKernel.Block.Transparent
import NeoKernel.Lib.Update

/-!
# Concurrent calls of the sector cache

The lock is held in two sections of a read that misses and of a write, and dropped for the
transfer between them. One step here is one such section or one transfer, so calls of any
number of threads interleave in every way. What a thread is in the middle of is its `Op`.
-/
namespace NeoKernel.Block
open Lib Function Option

inductive Op where
  /-- a read that has missed, before its transfer -/
  | readMiss (w dl : Nat) (out : Buffer) (gen : Nat)
  /-- after it -/
  | readGot (w dl : Nat) (out : Buffer) (gen : Nat)
  /-- a write before its transfer -/
  | writeBegun (w dl count : Nat) (src : Buffer)
  /-- after it, with whether it has succeeded -/
  | writeDone (w dl count : Nat) (src : Buffer) (ok : Bool)

structure Racing (τ : Type*) where
  cache : Cache
  disks : Disks
  ops : τ → Option Op

inductive RaceAct (τ : Type*) where
  | readStart (t : τ) (d : Blockdev) (lba : Nat) (out : Buffer)
  | readTransfer (t : τ) (tr : Transfer)
  | readInstall (t : τ)
  | writeStart (t : τ) (d : Blockdev) (lba count : Nat) (src : Buffer)
  | writeTransfer (t : τ) (tr : Transfer) (damage : Nat → Buffer)
  | writeFinish (t : τ)
  | invalidate (d : Blockdev)

section Steps

variable {τ : Type*} [DecidableEq τ] (geometry : Nat → Geometry)

namespace Racing

def setOp (s : Racing τ) (t : τ) (op : Option Op) : Racing τ :=
  { s with ops := update s.ops t op }

/-- The first section of `blkcache_read`, after which a hit has returned. -/
def readStart (s : Racing τ) (t : τ) (d : Blockdev) (lba : Nat) (out : Buffer) : Racing τ :=
  match resolve d lba 1 with
  | .error _ => s
  | .ok dl =>
      match s.cache.lookup d.whole dl with
      | some b =>
          let c := s.cache.touch b
          { s with cache := { c with hits := u64 (c.hits + 1) } }
      | none =>
          { s with cache := { s.cache with misses := u64 (s.cache.misses + 1) } }.setOp t
            (some (.readMiss d.whole dl out s.cache.writeGen))

def readTransfer (s : Racing τ) (t : τ) (w dl : Nat) (out : Buffer) (gen : Nat) (tr : Transfer) :
    Racing τ :=
  match blockdevRead geometry s.disks w dl 1 out tr with
  | .error _ => s.setOp t none
  | .ok out => s.setOp t (some (.readGot w dl out gen))

/-- The second section of `blkcache_read`. -/
def readInstall (s : Racing τ) (t : τ) (w dl : Nat) (out : Buffer) (gen : Nat) : Racing τ :=
  if s.cache.writeGen ≠ gen then s.setOp t none
  else { s with cache := s.cache.fill w dl out (geometry w).sectorSize }.setOp t none

/-- The first section of `blkcache_write_multi`. -/
def writeStart (s : Racing τ) (t : τ) (d : Blockdev) (lba count : Nat) (src : Buffer) : Racing τ :=
  match resolve d lba count with
  | .error _ => s
  | .ok dl => { s with cache := s.cache.bumpGen }.setOp t (some (.writeBegun d.whole dl count src))

def writeTransfer (s : Racing τ) (t : τ) (w dl count : Nat) (src : Buffer) (tr : Transfer)
    (damage : Nat → Buffer) : Racing τ :=
  let r := blockdevWrite geometry s.disks w dl count src tr damage
  { s with disks := r.1 }.setOp t (some (.writeDone w dl count src r.2.toOption.isSome))

/-- The second section of `blkcache_write_multi`. -/
def writeFinish (s : Racing τ) (t : τ) (w dl count : Nat) (src : Buffer) (ok : Bool) : Racing τ :=
  let c := s.cache.bumpGen
  let ss := (geometry w).sectorSize
  if count = 1 ∧ ok then { s with cache := c.fill w dl src ss }.setOp t none
  else { s with cache := slots.foldl (refreshOrDrop w dl count ss src ok) c }.setOp t none

end Racing

def raceStep (s : Racing τ) : RaceAct τ → Option (Racing τ)
  | .readStart t d lba out => if (s.ops t).isNone then some (s.readStart t d lba out) else none
  | .readTransfer t tr =>
      match s.ops t with
      | some (.readMiss w dl out gen) => some (s.readTransfer geometry t w dl out gen tr)
      | _ => none
  | .readInstall t =>
      match s.ops t with
      | some (.readGot w dl out gen) => some (s.readInstall geometry t w dl out gen)
      | _ => none
  | .writeStart t d lba count src =>
      if (s.ops t).isNone then some (s.writeStart t d lba count src) else none
  | .writeTransfer t tr damage =>
      match s.ops t with
      | some (.writeBegun w dl count src) =>
          some (s.writeTransfer geometry t w dl count src tr damage)
      | _ => none
  | .writeFinish t =>
      match s.ops t with
      | some (.writeDone w dl count src ok) => some (s.writeFinish geometry t w dl count src ok)
      | _ => none
  | .invalidate d => some { s with cache := slots.foldl (dropDevice d.whole) s.cache.bumpGen }

structure RaceInit (s : Racing τ) : Prop where
  cache : BlkInit ⟨s.cache, s.disks⟩
  ops : ∀ t, s.ops t = none

def raceSystem : System (Racing τ) (RaceAct τ) where
  init := RaceInit
  step := raceStep geometry

/-- A call that nothing interrupts is the one of the sequential cache. -/
theorem write_uninterrupted (s : Racing τ) (t : τ) (d : Blockdev) {lba count dl : Nat}
    (src : Buffer)
    (tr : Transfer) (damage : Nat → Buffer) (hres : resolve d lba count = .ok dl) :
    let s₁ := s.writeStart t d lba count src
    let s₂ := s₁.writeTransfer geometry t d.whole dl count src tr damage
    let ok := (blockdevWrite geometry s.disks d.whole dl count src tr damage).2.toOption.isSome
    let s₃ := s₂.writeFinish geometry t d.whole dl count src ok
    (⟨s₃.cache, s₃.disks⟩ : State) =
      (blkcacheWriteMulti geometry ⟨s.cache, s.disks⟩ d lba count src tr damage).1 := by
  unfold Racing.writeStart Racing.writeTransfer Racing.writeFinish blkcacheWriteMulti
  rw [hres]
  dsimp only [Racing.setOp]
  split <;> rfl

theorem read_uninterrupted (s : Racing τ) (t : τ) (d : Blockdev) {lba dl : Nat} (out out' : Buffer)
    (tr : Transfer) (hres : resolve d lba 1 = .ok dl) (hmiss : s.cache.lookup d.whole dl = none)
    (hread : blockdevRead geometry s.disks d.whole dl 1 out tr = .ok out') :
    let s₁ := s.readStart t d lba out
    let s₂ := s₁.readTransfer geometry t d.whole dl out s.cache.writeGen tr
    let s₃ := s₂.readInstall geometry t d.whole dl out' s.cache.writeGen
    (⟨s₃.cache, s₃.disks⟩ : State) =
      (blkcacheRead geometry ⟨s.cache, s.disks⟩ d lba out tr).1 := by
  intro s₁ s₂ s₃
  have hstart : s₁ = { s with cache := { s.cache with misses := u64 (s.cache.misses + 1) } }.setOp t
      (some (.readMiss d.whole dl out s.cache.writeGen)) := by
    unfold s₁ Racing.readStart
    rw [hres]
    dsimp only
    rw [hmiss]
  have htransfer : s₂ = s₁.setOp t (some (.readGot d.whole dl out' s.cache.writeGen)) := by
    have hread₁ : blockdevRead geometry s₁.disks d.whole dl 1 out tr = .ok out' := by
      rw [hstart]
      exact hread
    unfold s₂ Racing.readTransfer
    rw [hread₁]
  have hinstall : s₃ = { s₂ with
      cache := s₂.cache.fill d.whole dl out' (geometry d.whole).sectorSize }.setOp t none := by
    unfold s₃ Racing.readInstall
    rw [htransfer, hstart]
    exact if_neg (not_not.2 rfl)
  unfold blkcacheRead
  rw [hinstall, htransfer, hstart, hres]
  dsimp only
  rw [hmiss]
  dsimp only
  rw [hread]
  dsimp only
  rw [if_neg (not_not.2 rfl)]
  rfl

end Steps

namespace Op

def Writes (op : Op) (dev l : Nat) : Prop :=
  match op with
  | .writeBegun w dl count _ | .writeDone w dl count _ _ => w = dev ∧ dl ≤ l ∧ l < dl + count
  | _ => False

/-- Its transfer is done, and the cache does not know. The end is computed as the cache does. -/
def Pends (op : Op) (dev l : Nat) : Prop :=
  match op with
  | .writeDone w dl count _ _ => w = dev ∧ dl ≤ l ∧ l < u64 (dl + count)
  | _ => False

def ApartFrom (op : Op) (w dl count : Nat) : Prop :=
  match op with
  | .writeBegun w' dl' count' _ | .writeDone w' dl' count' _ _ =>
      w' ≠ w ∨ dl' + count' ≤ dl ∨ dl + count ≤ dl'
  | _ => True

theorem ApartFrom.not_writes {op : Op} {w dl count l : Nat} (h : op.ApartFrom w dl count)
    (hlo : dl ≤ l) (hhi : l < dl + count) : ¬op.Writes w l := by
  intro hw
  cases op with
  | readMiss | readGot => exact hw
  | writeBegun w' dl' count' src | writeDone w' dl' count' src ok =>
      obtain ⟨rfl, hw⟩ := hw
      rcases h with hne | h
      · exact hne rfl
      · omega

end Op

/-- A write starts when no other write of one of its sectors is under way, and the count of
writes does not wrap around. -/
def OneWriter {τ : Type*} (s : Racing τ) : RaceAct τ → Prop
  | .writeStart _ d lba count _ => s.cache.writeGen + 1 < 2 ^ 64 ∧
      ∀ dl ∈ (resolve d lba count).toOption, ∀ t, ∀ op ∈ s.ops t, op.ApartFrom d.whole dl count
  | .writeFinish _ | .invalidate _ => s.cache.writeGen + 1 < 2 ^ 64
  | _ => True

instance (op : Op) (w dl count : Nat) : Decidable (op.ApartFrom w dl count) :=
  match op with
  | .writeBegun .. | .writeDone .. => inferInstanceAs (Decidable (_ ∨ _ ∨ _))
  | .readMiss .. | .readGot .. => inferInstanceAs (Decidable True)

instance {τ : Type*} [Fintype τ] (s : Racing τ) : DecidablePred (OneWriter s)
  | .writeStart .. => inferInstanceAs (Decidable (_ ∧ ∀ dl ∈ _, ∀ t, ∀ op ∈ s.ops t, _))
  | .writeFinish _ | .invalidate _ => inferInstanceAs (Decidable (_ < _))
  | .readStart .. | .readTransfer .. | .readInstall _ | .writeTransfer .. =>
      inferInstanceAs (Decidable True)

/-- A valid entry holds its sector, or a write of it is about to say what it holds. -/
def Backed {τ : Type*} (geometry : Nat → Geometry) (disks : Disks) (ops : τ → Option Op)
    (e : BlkBuf) : Prop :=
  Holds geometry disks e ∨ ∃ t op, ops t = some op ∧ op.Pends e.dev e.lba

def Pending {τ : Type*} (ops : τ → Option Op) (dev l : Nat) : Prop :=
  ∃ t op, ops t = some op ∧ op.Pends dev l

def Op.Fine {τ : Type*} (geometry : Nat → Geometry) (s : Racing τ) : Op → Prop
  | .readMiss _ _ _ gen => gen ≤ s.cache.writeGen
  | .readGot w dl out gen => gen ≤ s.cache.writeGen ∧ (gen = s.cache.writeGen →
      (∀ i < (geometry w).sectorSize, out i = s.disks w dl i) ∨ Pending s.ops w dl)
  | .writeBegun _ _ count _ => count ≠ 0
  | .writeDone w dl count src ok => ok = true → inRange geometry w dl count ∧
      ∀ l, dl ≤ l → l < dl + count →
        ∀ i < (geometry w).sectorSize, s.disks w l i = sectorOf src dl (geometry w).sectorSize l i

def Writing (o : Option Op) (dev l : Nat) : Prop := ∃ op, o = some op ∧ op.Writes dev l

structure Guarded {τ : Type*} (geometry : Nat → Geometry) (s : Racing τ) : Prop where
  index : s.cache.index.Ok Cache.hashKey
  bytes : ∀ b, Backed geometry s.disks s.ops (s.cache.entries b)
  fine : ∀ t op, s.ops t = some op → op.Fine geometry s
  apart : ∀ dev l t t', Writing (s.ops t) dev l → Writing (s.ops t') dev l → t = t'

theorem writeGen_fill (c : Cache) (w dl : Nat) (src : Buffer) (ss : Nat) :
    (c.fill w dl src ss).writeGen = c.writeGen := by
  change (c.claim w dl).1.writeGen = _
  unfold Cache.claim
  split
  · rfl
  · exact Cache.writeGen_unlinkBuf c _

theorem writeGen_bumpGen {c : Cache} (h : c.writeGen + 1 < 2 ^ 64) :
    c.bumpGen.writeGen = c.writeGen + 1 :=
  Nat.mod_eq_of_lt h

section Guarded

variable {τ : Type*} [DecidableEq τ] {geometry : Nat → Geometry} {s s' : Racing τ} {t : τ} {op : Op}
  {w dl count gen lba : Nat} {src out : Buffer} {c : Cache} {o : Option Op} {ok : Bool}

theorem setOp_of_ne {t' : τ} (h : t' ≠ t) : (s.setOp t o).ops t' = s.ops t' :=
  update_of_ne h ..

theorem setOp_self (o : Option Op) : (s.setOp t o).ops t = o := update_self ..

theorem Pending.setOp {dev l : Nat} (h : Pending s.ops dev l)
    (hno : ∀ op, s.ops t = some op → ¬op.Pends dev l) : Pending (s.setOp t o).ops dev l := by
  obtain ⟨t', op, hop, hp⟩ := h
  refine ⟨t', op, (setOp_of_ne ?_).trans hop, hp⟩
  rintro rfl
  exact hno op hop hp

omit [DecidableEq τ] in
theorem only (hop : s.ops t = some op) {p : Op → Prop} (hp : p op) :
    ∀ op', s.ops t = some op' → p op' := by
  intro op' hop'
  cases hop.symm.trans hop'
  exact hp

omit [DecidableEq τ] in
theorem Op.Fine.change (h : op.Fine geometry s) (hdisks : s'.disks = s.disks)
    (hgen : s.cache.writeGen ≤ s'.cache.writeGen)
    (hpend : ∀ dev l, Pending s.ops dev l →
      Pending s'.ops dev l ∨ s'.cache.writeGen ≠ s.cache.writeGen) : op.Fine geometry s' := by
  cases op with
  | readMiss w dl out gen => exact h.trans hgen
  | readGot w dl out gen =>
      refine ⟨h.1.trans hgen, fun heq => ?_⟩
      have hsame : s'.cache.writeGen = s.cache.writeGen := le_antisymm (heq ▸ h.1) hgen
      rw [hdisks]
      exact (h.2 (heq.trans hsame)).imp_right fun hp =>
        (hpend w dl hp).resolve_right (not_not.2 hsame)
  | writeBegun w dl count src => exact h
  | writeDone w dl count src ok =>
      rw [Op.Fine, hdisks]
      exact h

theorem blockdevWrite_out {tr : Transfer} {damage : Nat → Buffer} {disks : Disks} {dev l : Nat}
    (hcount : count ≠ 0) (hout : ¬(w = dev ∧ dl ≤ l ∧ l < u64 (dl + count))) :
    (blockdevWrite geometry disks w dl count src tr damage).1 dev l = disks dev l := by
  have hout' : inRange geometry w dl count → dev ≠ w ∨ l < dl ∨ dl + count ≤ l := by
    intro hin
    rw [hin.stop] at hout
    by_cases hdev : w = dev
    · exact .inr (by omega)
    · exact .inl (Ne.symm hdev)
  rcases blockdevWrite_cases geometry disks w dl src tr damage hcount
    with ⟨err, hr⟩ | ⟨hin, err, hr⟩ | ⟨hin, hr⟩
  · rw [hr]
  · rw [hr]
    exact overwrite_of_out (hout' hin)
  · rw [hr]
    exact overwrite_of_out (hout' hin)

theorem Backed.leave {e : BlkBuf} (hop : s.ops t = some (.writeDone w dl count src ok))
    (h : Backed geometry s.disks s.ops e)
    (hout : ¬(w = e.dev ∧ dl ≤ e.lba ∧ e.lba < u64 (dl + count))) :
    Backed geometry s.disks (s.setOp t none).ops e :=
  h.imp_right fun hp => Pending.setOp hp (only hop hout)

namespace Guarded

variable (h : Guarded geometry s)
include h

omit [DecidableEq τ] in
/-- A section of a call: the disks stay, calls end or begin as reads, and one that a sector was
waiting for ends with a new generation. -/
theorem change (hdisks : s'.disks = s.disks)
    (hindex : s'.cache.index.Ok Cache.hashKey) (hgen : s.cache.writeGen ≤ s'.cache.writeGen)
    (hbytes : ∀ b, Backed geometry s.disks s'.ops (s'.cache.entries b))
    (hops : ∀ t op, s'.ops t = some op → s.ops t = some op ∨
      op.Fine geometry s' ∧ ∀ dev l, ¬op.Writes dev l)
    (hpend : ∀ dev l, Pending s.ops dev l →
      Pending s'.ops dev l ∨ s'.cache.writeGen ≠ s.cache.writeGen) : Guarded geometry s' := by
  refine ⟨hindex, fun b => hdisks ▸ hbytes b, fun t op hop => ?_, fun dev l t t' hw hw' => ?_⟩
  · rcases hops t op hop with hold | hnew
    · exact (h.fine t op hold).change hdisks hgen hpend
    · exact hnew.1
  · have hold : ∀ {t}, Writing (s'.ops t) dev l → Writing (s.ops t) dev l := by
      rintro t ⟨op, hop, hw⟩
      exact ⟨op, (hops t op hop).resolve_right fun hn => hn.2 dev l hw, hw⟩
    exact h.apart dev l t t' (hold hw) (hold hw')

theorem setOp (hno : ∀ dev l op, s.ops t = some op → ¬op.Pends dev l)
    (hnew : ∀ op, o = some op → op.Fine geometry (s.setOp t o) ∧ ∀ dev l, ¬op.Writes dev l) :
    Guarded geometry (s.setOp t o) := by
  refine h.change rfl h.index le_rfl (fun b => (h.bytes b).imp_right fun hp =>
    Pending.setOp hp (hno _ _))
    (fun t' op hop => ?_) fun dev l hp => .inl (hp.setOp (hno dev l))
  rcases update_eq_cases hop with ⟨-, ho⟩ | ⟨-, hold⟩
  · exact .inr (hnew op ho)
  · exact .inl hold

theorem drop (hop : s.ops t = some op) (hp : ∀ dev l, ¬op.Pends dev l) :
    Guarded geometry (s.setOp t none) :=
  h.setOp (fun dev l => only hop (hp dev l)) nofun

omit [DecidableEq τ] in
theorem nextGen {c : Cache} {ops : τ → Option Op} (hgen : c.writeGen = s.cache.writeGen + 1)
    (hindex : c.index.Ok Cache.hashKey) (hbytes : ∀ b, Backed geometry s.disks ops (c.entries b))
    (hops : ∀ t op, ops t = some op → s.ops t = some op) : Guarded geometry ⟨c, s.disks, ops⟩ := by
  refine h.change rfl hindex (hgen.symm ▸ Nat.le_succ _) hbytes
    (fun t op hop => .inl (hops t op hop))
    fun dev l _ => .inr ?_
  dsimp only
  omega

theorem readStart (ht : s.ops t = none) (d : Blockdev) (lba : Nat) (out : Buffer) :
    Guarded geometry (s.readStart t d lba out) := by
  unfold Racing.readStart
  split
  · exact h
  split
  · next dl _ b _ =>
      exact h.change rfl ((Cache.index_touch s.cache b).symm ▸ h.index) le_rfl
        (Cache.touch_all h.bytes (h.bytes b)) (fun _ _ => .inl) fun _ _ => .inl
  · have hmiss : Guarded geometry
        { s with cache := { s.cache with misses := u64 (s.cache.misses + 1) } } :=
      h.change rfl h.index le_rfl h.bytes (fun _ _ => .inl) fun _ _ => .inl
    refine hmiss.setOp (fun _ _ op hop => nomatch ht.symm.trans hop) ?_
    rintro _ ⟨⟩
    exact ⟨le_rfl, fun _ _ => id⟩

theorem readTransfer (hop : s.ops t = some (.readMiss w dl out gen)) (tr : Transfer) :
    Guarded geometry (s.readTransfer geometry t w dl out gen tr) := by
  unfold Racing.readTransfer
  split
  · exact h.drop hop fun _ _ hp => hp
  next out' hread =>
  refine h.setOp (fun dev l => only hop id) ?_
  rintro _ ⟨⟩
  refine ⟨⟨h.fine t _ hop, fun _ => .inl fun i hi => ?_⟩, fun _ _ => id⟩
  rw [blockdevRead_ok hread i (by omega)]
  exact sectors_of_lt hi

theorem readInstall (hop : s.ops t = some (.readGot w dl out gen)) :
    Guarded geometry (s.readInstall geometry t w dl out gen) := by
  have hdrop := h.drop hop fun _ _ hp => hp
  unfold Racing.readInstall
  split
  · exact hdrop
  next hgen =>
  refine hdrop.change rfl (Cache.fill_ok h.index ..) (writeGen_fill ..).ge
    (Cache.fill_all (Backed geometry s.disks (s.setOp t none).ops) h.index ?_ fun b _ =>
      hdrop.bytes b)
    (fun _ _ => .inl) fun _ _ => .inl
  intro e hdev hlba hdata
  rcases (h.fine t _ hop).2 (not_not.1 hgen).symm with hsame | hp
  · refine .inl fun _ i hi => ?_
    rw [hdev] at hi ⊢
    rw [hlba, hdata i hi]
    exact hsame i hi
  · refine .inr (Pending.setOp ?_ (only hop id))
    rw [hdev, hlba]
    exact hp

theorem writeStart (ht : s.ops t = none) {d : Blockdev}
    (hok : OneWriter s (.writeStart t d lba count src)) :
    Guarded geometry (s.writeStart t d lba count src) := by
  unfold Racing.writeStart
  split
  · exact h
  next dl hres =>
  obtain ⟨hwrap, hapart⟩ := hok
  have hkept : ∀ dev l, Pending s.ops dev l →
      Pending (s.setOp t (some (.writeBegun d.whole dl count src))).ops dev l :=
    fun dev l hp => hp.setOp fun op hop => nomatch ht.symm.trans hop
  refine ⟨h.index, fun b => (h.bytes b).imp_right (hkept _ _), fun t' op' hop' => ?_,
    fun dev l t₁ t₂ => unique_update (p := (Writing · dev l)) (h.apart dev l) ?_⟩
  · rcases update_eq_cases hop' with ⟨-, ho⟩ | ⟨-, hold⟩
    · cases ho
      exact resolve_count hres
    · refine (h.fine t' op' hold).change rfl ?_ fun dev l hp => .inl (hkept dev l hp)
      exact (Nat.le_succ _).trans (writeGen_bumpGen hwrap).ge
  · rintro ⟨_, ⟨⟩, rfl, hlo, hhi⟩ t' _ ⟨op', hop', hw⟩
    have hdl : dl ∈ (resolve d lba count).toOption := by
      rw [hres]
      rfl
    exact (hapart dl hdl t' op' hop').not_writes hlo hhi hw

theorem writeTransfer (hop : s.ops t = some (.writeBegun w dl count src)) (tr : Transfer)
    (damage : Nat → Buffer) :
    Guarded geometry (s.writeTransfer geometry t w dl count src tr damage) := by
  have hcount : count ≠ 0 := h.fine t _ hop
  unfold Racing.writeTransfer
  dsimp only
  generalize hok : (blockdevWrite geometry s.disks w dl count src tr damage).2.toOption.isSome = ok
  -- whatever agreed with the disks still does, or waits for a write: for this one, if it is changed
  have hagree : ∀ {dev l : Nat} {data : Buffer} {n : Nat},
      ((∀ i < n, data i = s.disks dev l i) ∨ Pending s.ops dev l) →
      (∀ i < n, data i = (blockdevWrite geometry s.disks w dl count src tr damage).1 dev l i) ∨
        Pending (s.setOp t (some (.writeDone w dl count src ok))).ops dev l := by
    intro dev l data n hdata
    by_cases hin : w = dev ∧ dl ≤ l ∧ l < u64 (dl + count)
    · exact .inr ⟨t, _, setOp_self _, hin⟩
    · rw [blockdevWrite_out hcount hin]
      exact hdata.imp_right fun hp => hp.setOp (only hop id)
  refine ⟨h.index, fun b => ?_, fun t' op' hop' => ?_,
    fun dev l t₁ t₂ => unique_update (p := (Writing · dev l)) (h.apart dev l) ?_⟩
  · change Backed geometry _ _ (s.cache.entries b)
    by_cases hv : (s.cache.entries b).valid = true
    · exact (hagree ((h.bytes b).imp_left fun hholds => hholds hv)).imp_left fun hdata _ => hdata
    · exact .inl fun hv' => absurd hv' hv
  · rcases update_eq_cases hop' with ⟨-, ho⟩ | ⟨hne, hold⟩
    · cases ho
      rintro rfl
      rcases blockdevWrite_cases geometry s.disks w dl src tr damage hcount
        with ⟨err, hr⟩ | ⟨-, err, hr⟩ | ⟨hin, hr⟩
      · rw [hr] at hok
        cases hok
      · rw [hr] at hok
        cases hok
      · refine ⟨hin, fun l hlo hhi i _ => ?_⟩
        change (blockdevWrite geometry s.disks w dl count src tr damage).1 w l i = _
        rw [hr]
        dsimp only
        rw [overwrite_of_in hlo hhi]
    · have hfine := h.fine t' op' hold
      cases op' with
      | readMiss | writeBegun => exact hfine
      | readGot w' dl' out gen => exact ⟨hfine.1, fun heq => hagree (hfine.2 heq)⟩
      | writeDone w' dl' count' src' ok' =>
          intro hok'
          obtain ⟨hin, hdata⟩ := hfine hok'
          refine ⟨hin, fun l hlo hhi i hi => ?_⟩
          have hout : ¬(w = w' ∧ dl ≤ l ∧ l < u64 (dl + count)) := fun hin' =>
            hne (h.apart w' l t' t ⟨_, hold, rfl, hlo, hhi⟩
              ⟨_, hop, hin'.1, hin'.2.1, hin'.2.2.trans_le (Nat.mod_le _ _)⟩)
          change (blockdevWrite geometry s.disks w dl count src tr damage).1 w' l i = _
          rw [blockdevWrite_out hcount hout]
          exact hdata l hlo hhi i hi
  · rintro ⟨_, ⟨⟩, hw⟩ t' hne hw'
    exact hne (h.apart dev l t' t hw' ⟨_, hop, hw⟩)

theorem refreshed (hop : s.ops t = some (.writeDone w dl count src ok)) (c : Cache) (i : Slot)
    (hfine : Backed geometry s.disks s.ops (c.entries i)) :
    Backed geometry s.disks (s.setOp t none).ops
      ((refreshOrDrop w dl count (geometry w).sectorSize src ok c i).entries i) := by
  refine refreshOrDrop_good c i (fun _ hv => .inl (.of_invalid hv))
    (fun hout => hfine.leave hop fun hin => ?_) fun hok e hdev hlo hhi hfresh =>
      .inl fun _ j hj => ?_
  · rcases hout with hdev | hlba
    · exact hdev hin.1.symm
    · omega
  · obtain ⟨hin, hdata⟩ := h.fine t _ hop hok
    rw [hin.stop] at hhi
    rw [hdev] at hj ⊢
    rw [hdata _ hlo hhi j hj]
    exact hfresh j hj

theorem writeFinish (hop : s.ops t = some (.writeDone w dl count src ok))
    (hwrap : s.cache.writeGen + 1 < 2 ^ 64) :
    Guarded geometry (s.writeFinish geometry t w dl count src ok) := by
  have hbump := writeGen_bumpGen hwrap
  have hops : ∀ t' op', (s.setOp t none).ops t' = some op' → s.ops t' = some op' :=
    fun t' op' hop' => (update_eq_cases hop').elim (fun hnew => nomatch hnew.2) fun hold => hold.2
  unfold Racing.writeFinish
  dsimp only
  split
  · next hone =>
      obtain ⟨rfl, rfl⟩ := hone
      obtain ⟨hin, hdata⟩ := h.fine t _ hop rfl
      have hindex : s.cache.bumpGen.index.Ok Cache.hashKey := h.index
      refine h.nextGen ((writeGen_fill ..).trans hbump) (Cache.fill_ok hindex ..)
        (Cache.fill_all (Backed geometry s.disks (s.setOp t none).ops) hindex ?_ ?_) hops
      · intro e hdev hlba hsrc
        refine .inl fun _ i hi => ?_
        rw [hdev] at hi ⊢
        rw [hlba, hsrc i hi, hdata dl le_rfl (Nat.lt_succ_self dl) i hi, sectorOf, Nat.sub_self,
          Nat.zero_mul, Nat.zero_add]
      · intro b hb
        by_cases hv : (s.cache.entries b).valid = true
        · refine (h.bytes b).leave hop fun hpend =>
            hb (Cache.keyOf_eq_some.2 ⟨hv, hpend.1.symm, ?_⟩)
          obtain ⟨-, hlo, hhi⟩ := hpend
          rw [hin.stop] at hhi
          exact le_antisymm (Nat.le_of_lt_succ hhi) hlo
        · exact .inl fun hv' => absurd hv' hv
  · obtain ⟨hindex, hgen, hbytes⟩ := round_refreshOrDrop.loop (h.refreshed hop) s.cache.bumpGen
      h.index h.bytes
    exact h.nextGen (hgen.trans hbump) hindex hbytes hops

omit [DecidableEq τ] in
theorem invalidate (hwrap : s.cache.writeGen + 1 < 2 ^ 64) (d : Blockdev) :
    Guarded geometry { s with cache := slots.foldl (dropDevice d.whole) s.cache.bumpGen } := by
  obtain ⟨hindex, hgen, hbytes⟩ := round_dropDevice.loop
    (dropDevice_good fun _ hv => .inl (.of_invalid hv)) s.cache.bumpGen h.index h.bytes
  exact h.nextGen (hgen.trans (writeGen_bumpGen hwrap)) hindex hbytes fun _ _ => id

theorem raceStep {a : RaceAct τ} (hok : OneWriter s a) (hs : raceStep geometry s a = some s') :
    Guarded geometry s' := by
  revert hs
  fun_cases Block.raceStep geometry s a <;> intro hs <;> cases hs
  · next t d lba out ht => exact h.readStart (isNone_iff_eq_none.1 ht) d lba out
  · next t tr w dl out gen hop => exact h.readTransfer hop tr
  · next t w dl out gen hop => exact h.readInstall hop
  · next t d lba count src ht => exact h.writeStart (isNone_iff_eq_none.1 ht) hok
  · next t tr damage w dl count src hop => exact h.writeTransfer hop tr damage
  · next t w dl count src ok hop => exact h.writeFinish hop hok
  · next d => exact h.invalidate hok d

end Guarded

omit [DecidableEq τ] in
theorem RaceInit.guarded (h : RaceInit s) : Guarded geometry s := by
  have hcoherent : Coherent geometry ⟨s.cache, s.disks⟩ := h.cache.coherent
  have hnone : ∀ {t op}, s.ops t = some op → False := by
    intro t op hop
    cases (h.ops t).symm.trans hop
  exact ⟨hcoherent.index, fun b => .inl (hcoherent.bytes b), fun _ _ hop => (hnone hop).elim,
    fun _ _ _ _ ⟨_, hop, _⟩ => (hnone hop).elim⟩

end Guarded

/-- In every run in which writes of one sector do not overlap in time, at any moment a valid
entry holds what is on the device or a write of its sector has not finished; so when all calls
have finished every valid entry holds its sector. -/
theorem cache_coherent_when_idle {τ : Type*} [DecidableEq τ] {geometry : Nat → Geometry}
    {s : Racing τ}
    (hr : (raceSystem geometry).Reach OneWriter s) :
    (∀ b, Backed geometry s.disks s.ops (s.cache.entries b)) ∧
      ((∀ t, s.ops t = none) → ∀ b, (s.cache.entries b).valid = true →
        ∀ i < (geometry (s.cache.entries b).dev).sectorSize,
          (s.cache.entries b).data i = s.disks (s.cache.entries b).dev
            (s.cache.entries b).lba i) := by
  have h : Guarded geometry s := hr.invariant (Guarded geometry) (fun _ h => h.guarded)
    fun _ _ _ h hok hs => h.raceStep hok hs
  refine ⟨h.bytes, fun hidle b => ?_⟩
  rcases h.bytes b with hb | ⟨t, op, hop, -⟩
  · exact hb
  · cases (hidle t).symm.trans hop

def idleCalls : Racing (Fin 2) := ⟨coldCache.cache, coldCache.disks, fun _ => none⟩

theorem idleCalls_init : RaceInit idleCalls := ⟨⟨fun _ => rfl, fun _ => rfl⟩, fun _ => rfl⟩

/-- A sector is written while a read of it is on its way, with the bytes from before the write. -/
def readAcrossWrite : List (RaceAct (Fin 2)) :=
  [.readStart 0 wholeDisk 70 fun _ => 0,
   .readTransfer 0 none,
   .writeStart 1 wholeDisk 70 1 fun _ => 0xA5,
   .writeTransfer 1 none fun _ _ => 0,
   .writeFinish 1,
   .readInstall 0]

theorem cache_coherent_when_idle_readAcrossWrite :
    ∃ s : Racing (Fin 2), (raceSystem smallDisk).Reach OneWriter s ∧
      (s.cache.entries firstSlot).valid = true ∧ s.disks 0x1000 70 0 = 0xA5 ∧
        ∀ i < 512, (s.cache.entries firstSlot).data i =
          s.disks (s.cache.entries firstSlot).dev (s.cache.entries firstSlot).lba i := by
  refine System.Reach.exists_of_run_imp readAcrossWrite idleCalls_init (by decide +kernel)
    fun s hr (hs : (∀ t, (s.ops t).isNone) ∧ (s.cache.entries firstSlot).valid = true ∧
      s.disks 0x1000 70 0 = 0xA5) => ?_
  obtain ⟨hidle, hvalid, hdisk⟩ := hs
  exact ⟨hvalid, hdisk, (cache_coherent_when_idle hr).2
    (fun t => isNone_iff_eq_none.1 (hidle t)) firstSlot hvalid⟩

/-- The second of two writes of a sector reaches the disk last and the cache first. -/
def writesCrossed : List (RaceAct (Fin 2)) :=
  [.writeStart 0 wholeDisk 70 1 fun _ => 0xA5,
   .writeTransfer 0 none fun _ _ => 0,
   .writeStart 1 wholeDisk 70 1 fun _ => 0x3C,
   .writeTransfer 1 none fun _ _ => 0,
   .writeFinish 1,
   .writeFinish 0]

theorem cache_stale_after_crossed_writes :
    ∃ s : Racing (Fin 2), (raceSystem smallDisk).Reach (fun _ _ => True) s ∧
      (∀ t, s.ops t = none) ∧ (s.cache.entries firstSlot).valid = true ∧
        (s.cache.entries firstSlot).dev = 0x1000 ∧ (s.cache.entries firstSlot).lba = 70 ∧
          (s.cache.entries firstSlot).data 0 = 0xA5 ∧
          s.disks 0x1000 70 0 = 0x3C :=
  System.Reach.exists_of_run_imp writesCrossed idleCalls_init (by decide +kernel) fun s _ =>
    And.imp_left fun (hidle : ∀ t, (s.ops t).isNone) t => isNone_iff_eq_none.1 (hidle t)

end NeoKernel.Block
