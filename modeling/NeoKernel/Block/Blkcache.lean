import NeoKernel.Errno
import NeoKernel.Lib.HashIndex
import NeoKernel.Lib.Trans
import Mathlib.Tactic

/-!
# The sector cache (kernel/fs/blkcache.c)

The cache with its hash chains and its least-recently-used choice of an entry, over disks whose
transfers may fail. Calls are whole here, so a read never finds `write_gen` moved.
-/
namespace NeoKernel.Block
open Lib Function

abbrev Byte := BitVec 8
abbrev Buffer := Nat → Byte

def blkcacheMaxSector : Nat := 4096
def blkcacheEntries : Nat := 128
def blkcacheBuckets : Nat := 64

/-- What a driver registers a whole disk with; every driver refuses other sector sizes. -/
structure Geometry where
  sectorSize : Nat
  sectorCount : Nat
  readOnly : Bool
  size_le : sectorSize ≤ blkcacheMaxSector
  count_lt : sectorCount < 2 ^ 64

/-- A disk or a partition: `whole` is the address of the `struct blockdev` of the disk. -/
structure Blockdev where
  whole : Nat
  startLba : Nat
  sectorCount : Nat

abbrev Disks := Nat → Nat → Buffer

structure BlkBuf where
  data : Buffer
  dev : Nat
  lba : Nat
  valid : Bool
  lastUsed : Nat

abbrev Slot := Fin blkcacheEntries

@[irreducible] def slots : List Slot := List.finRange blkcacheEntries

structure Cache where
  entries : Slot → BlkBuf
  buckets : Nat → List Slot
  clockTick : Nat
  hits : Nat
  misses : Nat
  writeGen : Nat

def u64 (a : Nat) : Nat := a % 2 ^ 64

def bucketOf (dev lba : Nat) : Nat :=
  ((lba % 2 ^ 32 * 2654435761 % 2 ^ 32) ^^^ (dev / 16 % 2 ^ 32)) % blkcacheBuckets

def memCopy (dst src : Buffer) (n : Nat) : Buffer := fun i => if i < n then src i else dst i

/-- Byte `j` of the buffer of an entry, in the pool of `blkcache_init`. -/
def poolOffset (b : Slot) (j : Nat) : Nat := b * blkcacheMaxSector + j

/-- The buffers may be functions of their own: the sectors of two entries share no byte of the pool,
which has room for all. -/
theorem poolOffset_apart (g g' : Geometry) {b b' : Slot} {j j' : Nat} (hj : j < g.sectorSize)
    (hj' : j' < g'.sectorSize) : poolOffset b j < 2 ^ 7 * 4096 ∧
      (poolOffset b j = poolOffset b' j' → b = b' ∧ j = j') := by
  have hsize := g.size_le
  have hsize' := g'.size_le
  have hb : b.val < 128 := b.isLt
  unfold poolOffset blkcacheMaxSector at *
  rw [Fin.ext_iff]
  omega

namespace Cache

def setEntry (c : Cache) (b : Slot) (e : BlkBuf) : Cache :=
  { c with entries := update c.entries b e }

def lookup (c : Cache) (dev lba : Nat) : Option Slot :=
  (c.buckets (bucketOf dev lba)).find? fun b =>
    (c.entries b).valid && (c.entries b).lba == lba && (c.entries b).dev == dev

def unlinkBuf (c : Cache) (b : Slot) : Cache :=
  let e := c.entries b
  if !e.valid then c
  else
    { c with
      entries := update c.entries b { e with valid := false }
      buckets := update c.buckets (bucketOf e.dev e.lba)
        ((c.buckets (bucketOf e.dev e.lba)).erase b) }

/-- The loop of `claim`: the first entry that is not valid, or else the first of those
used longest ago. -/
def victim (c : Cache) : Option Slot → List Slot → Option Slot
  | best, [] => best
  | best, i :: is =>
      if !(c.entries i).valid then some i
      else
        match best with
        | none => victim c (some i) is
        | some b =>
            victim c (if (c.entries i).lastUsed < (c.entries b).lastUsed then some i else best) is

def install (c : Cache) (dev lba : Nat) (b : Slot) : Cache :=
  let c := c.unlinkBuf b
  { c with
    entries := update c.entries b { c.entries b with dev := dev, lba := lba, valid := true }
    buckets := update c.buckets (bucketOf dev lba) (b :: c.buckets (bucketOf dev lba)) }

def claim (c : Cache) (dev lba : Nat) : Cache × Slot :=
  match c.lookup dev lba with
  | some b => (c, b)
  | none =>
      let b := (c.victim none slots).getD ⟨0, by decide⟩
      (c.install dev lba b, b)

def touch (c : Cache) (b : Slot) : Cache :=
  let c := { c with clockTick := u64 (c.clockTick + 1) }
  c.setEntry b { c.entries b with lastUsed := c.clockTick }

def fill (c : Cache) (dev lba : Nat) (src : Buffer) (ss : Nat) : Cache :=
  let r := c.claim dev lba
  let e := r.1.entries r.2
  (r.1.setEntry r.2 { e with data := memCopy e.data src ss }).touch r.2

def bumpGen (c : Cache) : Cache := { c with writeGen := u64 (c.writeGen + 1) }

end Cache

def firstSlot : Slot := ⟨0, by decide⟩

/-! ## Disks -/

/-- What the driver answers a transfer: none if it succeeds. -/
abbrev Transfer := Option Errno

section Calls

variable (geometry : Nat → Geometry)

def resolve (d : Blockdev) (lba count : Nat) : Except Errno Nat :=
  if count = 0 ∨ lba ≥ d.sectorCount ∨ count > d.sectorCount - lba then .error .eio
  else .ok (u64 (d.startLba + lba))

def inRange (w lba count : Nat) : Prop :=
  lba < (geometry w).sectorCount ∧ count ≤ (geometry w).sectorCount - lba

instance (w lba count : Nat) : Decidable (inRange geometry w lba count) :=
  inferInstanceAs (Decidable (_ ∧ _))

def sectors (disks : Disks) (w lba ss : Nat) : Buffer := fun i => disks w (lba + i / ss) (i % ss)

/-- `blockdev_read` of a whole disk into the buffer `out`, which is undefined if the
transfer fails. -/
def blockdevRead (disks : Disks) (w lba count : Nat) (out : Buffer) (t : Transfer) :
    Except Errno Buffer :=
  if count = 0 then .ok out
  else if ¬inRange geometry w lba count then .error .eio
  else
    match t with
    | some err => .error err
    | none =>
        let ss := (geometry w).sectorSize
        .ok (memCopy out (sectors disks w lba ss) (count * ss))

def overwrite (disks : Disks) (w lba count : Nat) (sector : Nat → Buffer) : Disks :=
  update disks w fun l => if lba ≤ l ∧ l < lba + count then sector l else disks w l

def sectorOf (src : Buffer) (lba ss l : Nat) : Buffer := fun i => src ((l - lba) * ss + i)

/-- `blockdev_write` of a whole disk. A transfer that fails may leave anything in the
sectors it was for, here `damage`. -/
def blockdevWrite (disks : Disks) (w lba count : Nat) (src : Buffer) (t : Transfer)
    (damage : Nat → Buffer) : Disks × Except Errno Unit :=
  if (geometry w).readOnly then (disks, .error .erofs)
  else if count = 0 then (disks, .ok ())
  else if ¬inRange geometry w lba count then (disks, .error .eio)
  else
    match t with
    | some err => (overwrite disks w lba count damage, .error err)
    | none => (overwrite disks w lba count (sectorOf src lba (geometry w).sectorSize), .ok ())

/-! ## The calls -/

structure State where
  cache : Cache
  disks : Disks

def blkcacheRead (s : State) (d : Blockdev) (lba : Nat) (out : Buffer) (t : Transfer) :
    State × Except Errno Buffer :=
  match resolve d lba 1 with
  | .error err => (s, .error err)
  | .ok dl =>
      let ss := (geometry d.whole).sectorSize
      match s.cache.lookup d.whole dl with
      | some b =>
          let c := s.cache.touch b
          ({ s with cache := { c with hits := u64 (c.hits + 1) } },
            .ok (memCopy out (c.entries b).data ss))
      | none =>
          let c := { s.cache with misses := u64 (s.cache.misses + 1) }
          let gen := c.writeGen
          match blockdevRead geometry s.disks d.whole dl 1 out t with
          | .error err => ({ s with cache := c }, .error err)
          | .ok out =>
              if c.writeGen ≠ gen then ({ s with cache := c }, .ok out)
              else ({ s with cache := c.fill d.whole dl out ss }, .ok out)

def blkcacheReadMulti (s : State) (d : Blockdev) (lba count : Nat) (out : Buffer) (t : Transfer) :
    Except Errno Buffer :=
  match resolve d lba count with
  | .error err => .error err
  | .ok dl => blockdevRead geometry s.disks d.whole dl count out t

/-- One round of the loop over the entries: a cached sector in the range is refreshed, or
dropped if the write has failed. -/
def refreshOrDrop (w dl count ss : Nat) (src : Buffer) (ok : Bool) (c : Cache) (i : Slot) : Cache :=
  let b := c.entries i
  if !b.valid ∨ b.dev ≠ w ∨ b.lba < dl ∨ b.lba ≥ u64 (dl + count) then c
  else if ok then c.setEntry i { b with data := memCopy b.data (sectorOf src dl ss b.lba) ss }
  else c.unlinkBuf i

def blkcacheWriteMulti (s : State) (d : Blockdev) (lba count : Nat) (src : Buffer) (t : Transfer)
    (damage : Nat → Buffer) : State × Except Errno Unit :=
  match resolve d lba count with
  | .error err => (s, .error err)
  | .ok dl =>
      let ss := (geometry d.whole).sectorSize
      let r := blockdevWrite geometry s.disks d.whole dl count src t damage
      let ok := r.2.toOption.isSome
      -- before the transfer and after it
      let c := s.cache.bumpGen.bumpGen
      if count = 1 ∧ ok then ({ cache := c.fill d.whole dl src ss, disks := r.1 }, r.2)
      else
        ({ cache := slots.foldl
             (refreshOrDrop d.whole dl count ss src ok) c,
           disks := r.1 }, r.2)

def blkcacheWrite (s : State) (d : Blockdev) (lba : Nat) (src : Buffer) (t : Transfer)
    (damage : Nat → Buffer) : State × Except Errno Unit :=
  blkcacheWriteMulti geometry s d lba 1 src t damage

def dropDevice (w : Nat) (c : Cache) (i : Slot) : Cache :=
  if (c.entries i).valid ∧ (c.entries i).dev = w then c.unlinkBuf i else c

def blkcacheInvalidate (s : State) (d : Blockdev) : State :=
  { s with cache := slots.foldl (dropDevice d.whole) s.cache.bumpGen }

/-! ## Sequences of calls -/

inductive BlkAct where
  | read (d : Blockdev) (lba : Nat) (out : Buffer) (t : Transfer)
  | readMulti (d : Blockdev) (lba count : Nat) (out : Buffer) (t : Transfer)
  | write (d : Blockdev) (lba : Nat) (src : Buffer) (t : Transfer) (damage : Nat → Buffer)
  | writeMulti (d : Blockdev) (lba count : Nat) (src : Buffer) (t : Transfer)
      (damage : Nat → Buffer)
  | invalidate (d : Blockdev)

def blkStep (s : State) : BlkAct → Option State
  | .read d lba out t => some (blkcacheRead geometry s d lba out t).1
  | .readMulti .. => some s
  | .write d lba src t damage => some (blkcacheWrite geometry s d lba src t damage).1
  | .writeMulti d lba count src t damage =>
      some (blkcacheWriteMulti geometry s d lba count src t damage).1
  | .invalidate d => some (blkcacheInvalidate s d)

/-- `blkcache_init`: nothing is cached, whatever is on the disks. -/
structure BlkInit (s : State) : Prop where
  valid : ∀ b, (s.cache.entries b).valid = false
  buckets : ∀ i, s.cache.buckets i = []

def blkSystem : System State BlkAct where
  init := BlkInit
  step := blkStep geometry

end Calls

end NeoKernel.Block
