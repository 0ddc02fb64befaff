import NeoKernel.Block.Blkcache

/-!
# The sector cache is transparent

Every valid entry holds what the device holds, and no sector is cached twice. The hash
chains are an instance of `NeoKernel.Lib.HashIndex`.
-/
namespace NeoKernel.Block
open Lib Function List Option

variable {e : BlkBuf} {Good : BlkBuf → Prop}

namespace Cache

def keyOf (c : Cache) (b : Slot) : Option (Nat × Nat) :=
  if (c.entries b).valid then some ((c.entries b).dev, (c.entries b).lba) else none

def index (c : Cache) : HashIndex Slot (Nat × Nat) := ⟨c.keyOf, c.buckets⟩

def hashKey (k : Nat × Nat) : Nat := bucketOf k.1 k.2

variable {c c' : Cache} {b x : Slot} {dev lba : Nat}

theorem keyOf_eq_some : c.keyOf b = some (dev, lba) ↔
    (c.entries b).valid = true ∧ (c.entries b).dev = dev ∧ (c.entries b).lba = lba := by
  unfold keyOf
  split
  · next h => simp [h]
  · next h => simp [h]

theorem keyOf_eq_none : c.keyOf b = none ↔ (c.entries b).valid = false := by
  unfold keyOf
  split
  · next h => simp [h]
  · next h => simpa using h

theorem keyOf_eq_update (h : c'.entries = update c.entries b e) :
    c'.keyOf = update c.keyOf b (if e.valid then some (e.dev, e.lba) else none) := by
  funext x
  unfold keyOf
  rw [h]
  exact apply_update (fun _ (e : BlkBuf) => if e.valid then some (e.dev, e.lba) else none) _ b e x

theorem lookup_eq_find : c.lookup dev lba = c.index.find hashKey (dev, lba) := by
  unfold lookup HashIndex.find
  congr 1
  funext b
  rw [Bool.eq_iff_iff]
  simp only [index, keyOf_eq_some, Bool.and_eq_true, beq_iff_eq, decide_eq_true_eq]
  tauto

theorem index_unlinkBuf (c : Cache) (b : Slot) :
    (c.unlinkBuf b).index = c.index.unlink hashKey b := by
  unfold unlinkBuf HashIndex.unlink
  by_cases hv : (c.entries b).valid
  · have hkey : c.index.key b = some ((c.entries b).dev, (c.entries b).lba) := by
      exact keyOf_eq_some.2 ⟨hv, rfl, rfl⟩
    rw [hkey]
    simp only [hv, Bool.not_true, Bool.false_eq_true, if_false, index]
    congr 1
    rw [keyOf_eq_update rfl]
    rfl
  · have hkey : c.index.key b = none := keyOf_eq_none.2 (by simpa using hv)
    rw [hkey]
    simp [hv]

theorem valid_unlinkBuf (c : Cache) (b : Slot) : ((c.unlinkBuf b).entries b).valid = false := by
  unfold unlinkBuf
  dsimp only
  split
  · next h => simpa using h
  · simp

theorem index_install (c : Cache) (dev lba : Nat) (b : Slot) :
    (c.install dev lba b).index = (c.index.unlink hashKey b).link hashKey b (dev, lba) := by
  rw [← index_unlinkBuf]
  unfold install HashIndex.link
  simp only [index]
  congr 1
  rw [keyOf_eq_update rfl]
  rfl

theorem index_setEntry (hd : e.dev = (c.entries b).dev) (hl : e.lba = (c.entries b).lba)
    (hv : e.valid = (c.entries b).valid) : (c.setEntry b e).index = c.index := by
  unfold setEntry
  simp only [index]
  congr 1
  rw [keyOf_eq_update rfl, hd, hl, hv]
  exact update_eq_self b c.keyOf

theorem entries_setEntry_self : (c.setEntry b e).entries b = e :=
  update_self ..

theorem entries_setEntry_ne (h : x ≠ b) : (c.setEntry b e).entries x = c.entries x :=
  update_of_ne h ..

theorem index_touch (c : Cache) (b : Slot) : (c.touch b).index = c.index := by
  unfold touch
  exact index_setEntry rfl rfl rfl

theorem entries_touch_ne (h : x ≠ b) : (c.touch b).entries x = c.entries x := by
  unfold touch
  exact entries_setEntry_ne h

theorem touch_all (h : ∀ x, Good (c.entries x))
    (hb : Good { c.entries b with lastUsed := u64 (c.clockTick + 1) }) (x : Slot) :
    Good ((c.touch b).entries x) :=
  (forall_update_iff c.entries fun _ => Good).2 ⟨hb, fun x _ => h x⟩ x

theorem entries_unlinkBuf_ne (h : x ≠ b) : (c.unlinkBuf b).entries x = c.entries x := by
  fun_cases unlinkBuf c b
  · rfl
  · exact update_of_ne h ..

theorem writeGen_unlinkBuf (c : Cache) (b : Slot) : (c.unlinkBuf b).writeGen = c.writeGen := by
  fun_cases unlinkBuf c b <;> rfl

/-- A round of a loop over the entries: the entry is left alone, dropped or filled in again. -/
def Round (step : Cache → Slot → Cache) : Prop :=
  ∀ c i, step c i = c ∨ step c i = c.unlinkBuf i ∨
    ∃ data, step c i = c.setEntry i { c.entries i with data }

section Rounds

variable {step : Cache → Slot → Cache} (h : Round step) (c : Cache) (i : Slot)
include h

theorem Round.others (hx : x ≠ i) : (step c i).entries x = c.entries x := by
  rcases h c i with heq | heq | ⟨data, heq⟩ <;> rw [heq]
  · exact entries_unlinkBuf_ne hx
  · exact entries_setEntry_ne hx

theorem Round.index (hc : c.index.Ok hashKey) : (step c i).index.Ok hashKey := by
  rcases h c i with heq | heq | ⟨data, heq⟩ <;> rw [heq]
  · exact hc
  · rw [index_unlinkBuf]
    exact hc.unlink i
  · rw [index_setEntry (by rfl) (by rfl) (by rfl)]
    exact hc

theorem Round.gen : (step c i).writeGen = c.writeGen := by
  rcases h c i with heq | heq | ⟨data, heq⟩ <;> rw [heq]
  · exact writeGen_unlinkBuf c i
  · rfl

end Rounds

theorem claim_ok (h : c.index.Ok hashKey) (dev lba : Nat) :
    (c.claim dev lba).1.index.Ok hashKey := by
  unfold claim
  split
  · exact h
  · next hnone =>
      rw [lookup_eq_find] at hnone
      rw [index_install]
      refine (h.unlink _).link ?_ ?_
      · rw [HashIndex.key_unlink, update_self]
      · intro y hy
        rw [HashIndex.key_unlink] at hy
        by_cases hyb : y = (c.victim none slots).getD ⟨0, by decide⟩
        · rw [hyb, update_self] at hy
          cases hy
        · rw [update_of_ne hyb] at hy
          exact h.key_ne_of_find hnone y hy

theorem claim_self (c : Cache) (dev lba : Nat) :
    let r := c.claim dev lba
    (r.1.entries r.2).valid = true ∧ (r.1.entries r.2).dev = dev ∧
      (r.1.entries r.2).lba = lba := by
  unfold claim
  split
  · next b hb =>
      rw [lookup_eq_find] at hb
      exact keyOf_eq_some.1 (HashIndex.key_of_find hb)
  · simp [install]

theorem claim_ne (h : c.index.Ok hashKey) (hx : x ≠ (c.claim dev lba).2) :
    (c.claim dev lba).1.entries x = c.entries x ∧ c.keyOf x ≠ some (dev, lba) := by
  unfold claim at hx ⊢
  cases hl : c.lookup dev lba with
  | some b =>
      simp only [hl] at hx ⊢
      refine ⟨trivial, fun hkey => hx ?_⟩
      rw [lookup_eq_find] at hl
      exact h.unique x b _ hkey (HashIndex.key_of_find hl)
  | none =>
      simp only [hl] at hx ⊢
      rw [lookup_eq_find] at hl
      refine ⟨?_, h.key_ne_of_find hl x⟩
      unfold install
      dsimp only
      rw [update_of_ne hx, entries_unlinkBuf_ne hx]

theorem fill_ok (h : c.index.Ok hashKey) (dev lba : Nat) (src : Buffer) (ss : Nat) :
    (c.fill dev lba src ss).index.Ok hashKey := by
  unfold fill
  dsimp only
  rw [index_touch, index_setEntry (by rfl) (by rfl) (by rfl)]
  exact claim_ok h dev lba

theorem fill_self (c : Cache) (dev lba : Nat) (src : Buffer) (ss : Nat) :
    let e := (c.fill dev lba src ss).entries (c.claim dev lba).2
    e.dev = dev ∧ e.lba = lba ∧ ∀ i < ss, e.data i = src i := by
  obtain ⟨-, hdev, hlba⟩ := claim_self c dev lba
  unfold fill touch
  simp only [setEntry, update_self]
  exact ⟨hdev, hlba, fun i hi => if_pos hi⟩

theorem fill_ne (h : c.index.Ok hashKey) (hx : x ≠ (c.claim dev lba).2) (src : Buffer) (ss : Nat) :
    (c.fill dev lba src ss).entries x = c.entries x ∧ c.keyOf x ≠ some (dev, lba) := by
  obtain ⟨hentry, hkey⟩ := claim_ne h hx
  refine ⟨?_, hkey⟩
  unfold fill
  dsimp only
  rw [entries_touch_ne hx, entries_setEntry_ne hx, hentry]

theorem fill_all (Good : BlkBuf → Prop) {src : Buffer} {ss : Nat} (h : c.index.Ok hashKey)
    (hself : ∀ e : BlkBuf, e.dev = dev → e.lba = lba → (∀ i < ss, e.data i = src i) → Good e)
    (hothers : ∀ b, c.keyOf b ≠ some (dev, lba) → Good (c.entries b)) (b : Slot) :
    Good ((c.fill dev lba src ss).entries b) := by
  by_cases hb : b = (c.claim dev lba).2
  · obtain ⟨hdev, hlba, hdata⟩ := fill_self c dev lba src ss
    rw [hb]
    exact hself _ hdev hlba hdata
  · obtain ⟨hentry, hkey⟩ := fill_ne h hb src ss
    rw [hentry]
    exact hothers b hkey

end Cache

theorem mem_slots (b : Slot) : b ∈ slots := by
  unfold slots
  exact mem_finRange b

theorem nodup_slots : slots.Nodup := by
  unfold slots
  exact nodup_finRange _

theorem Cache.Round.loop {step : Cache → Slot → Cache} (h : Round step) {Fine : BlkBuf → Prop}
    (hgood : ∀ c i, Fine (c.entries i) → Good ((step c i).entries i)) (c : Cache)
    (hindex : c.index.Ok hashKey) (hfine : ∀ i, Fine (c.entries i)) :
    (slots.foldl step c).index.Ok hashKey ∧ (slots.foldl step c).writeGen = c.writeGen ∧
      ∀ b, Good ((slots.foldl step c).entries b) := by
  suffices hl : ∀ l : List Slot, l.Nodup → ∀ c : Cache, c.index.Ok hashKey →
      (∀ i ∈ l, Fine (c.entries i)) →
      (l.foldl step c).index.Ok hashKey ∧ (l.foldl step c).writeGen = c.writeGen ∧
        (∀ x ∉ l, (l.foldl step c).entries x = c.entries x) ∧
        ∀ i ∈ l, Good ((l.foldl step c).entries i) by
    obtain ⟨hindex, hgen, -, hdone⟩ := hl slots nodup_slots c hindex fun i _ => hfine i
    exact ⟨hindex, hgen, fun b => hdone b (mem_slots b)⟩
  intro l
  induction l with
  | nil => exact fun _ c hindex _ => ⟨hindex, rfl, fun _ _ => rfl, nofun⟩
  | cons j l ih =>
      intro hl c hindex hfine
      obtain ⟨hj, hl⟩ := nodup_cons.1 hl
      obtain ⟨hindex', hgen, hout, hdone⟩ := ih hl (step c j) (h.index c j hindex) fun i hi => by
        rw [h.others c j fun heq => hj (heq ▸ hi)]
        exact hfine i (mem_cons_of_mem _ hi)
      rw [foldl_cons]
      refine ⟨hindex', hgen.trans (h.gen c j), fun x hx => ?_, fun i hi => ?_⟩
      · obtain ⟨hne, hx⟩ := not_or.1 (mem_cons.not.1 hx)
        rw [hout x hx, h.others c j hne]
      · rcases mem_cons.1 hi with rfl | hi
        · rw [hout i hj]
          exact hgood c i (hfine i mem_cons_self)
        · exact hdone i hi

section Calls

variable {geometry : Nat → Geometry} {s : State} {d : Blockdev} {w dl lba count ss : Nat}
  {src out : Buffer} {t : Transfer} {damage sector : Nat → Buffer} {disks : Disks} {ok : Bool}

def Holds (geometry : Nat → Geometry) (disks : Disks) (e : BlkBuf) : Prop :=
  e.valid = true → ∀ i < (geometry e.dev).sectorSize, e.data i = disks e.dev e.lba i

structure Coherent (geometry : Nat → Geometry) (s : State) : Prop where
  index : s.cache.index.Ok Cache.hashKey
  bytes : ∀ b, Holds geometry s.disks (s.cache.entries b)

/-- A sector of the device is copied into the cache. The entries for other sectors must
hold what is on the device by then. -/
theorem Coherent.fill {c : Cache} (h : c.index.Ok Cache.hashKey)
    (hsrc : ∀ i < (geometry w).sectorSize, src i = disks w dl i)
    (hothers : ∀ b, c.keyOf b ≠ some (w, dl) → Holds geometry disks (c.entries b)) :
    Coherent geometry ⟨c.fill w dl src (geometry w).sectorSize, disks⟩ := by
  refine ⟨Cache.fill_ok h _ _ _ _, Cache.fill_all _ h (fun e hdev hlba hdata _ i hi => ?_) hothers⟩
  rw [hdev] at hi ⊢
  rw [hlba, hdata i hi]
  exact hsrc i hi

theorem Holds.of_invalid (h : e.valid = false) : Holds geometry disks e := by
  intro hv
  cases hv.symm.trans h

theorem Coherent.touch (h : Coherent geometry s) (b : Slot) :
    Coherent geometry { s with cache := s.cache.touch b } := by
  refine ⟨?_, Cache.touch_all h.bytes (h.bytes b)⟩
  rw [Cache.index_touch]
  exact h.index

theorem blockdevWrite_cases (geometry : Nat → Geometry) (disks : Disks) (w dl : Nat)
    (src : Buffer) (t : Transfer) (damage : Nat → Buffer) (hcount : count ≠ 0) :
    let r := blockdevWrite geometry disks w dl count src t damage
    (∃ err, r = (disks, .error err)) ∨
    (inRange geometry w dl count ∧ ∃ err, r = (overwrite disks w dl count damage, .error err)) ∨
    (inRange geometry w dl count ∧
      r = (overwrite disks w dl count (sectorOf src dl (geometry w).sectorSize), .ok ())) := by
  intro r
  unfold r blockdevWrite
  by_cases hro : (geometry w).readOnly
  · rw [if_pos hro]
    exact .inl ⟨_, rfl⟩
  rw [if_neg hro, if_neg hcount]
  by_cases hin : inRange geometry w dl count
  · rw [if_neg (not_not.2 hin)]
    cases t with
    | some err => exact .inr (.inl ⟨hin, err, rfl⟩)
    | none => exact .inr (.inr ⟨hin, rfl⟩)
  · rw [if_pos hin]
    exact .inl ⟨_, rfl⟩

theorem overwrite_of_out {dev l : Nat} (h : dev ≠ w ∨ l < dl ∨ dl + count ≤ l) :
    overwrite disks w dl count sector dev l = disks dev l := by
  unfold overwrite
  by_cases hdev : dev = w
  · subst hdev
    rw [update_self, if_neg (by omega)]
  · rw [update_of_ne hdev]

theorem overwrite_of_in {l : Nat} (hlo : dl ≤ l) (hhi : l < dl + count) :
    overwrite disks w dl count sector w l = sector l := by
  unfold overwrite
  rw [update_self, if_pos ⟨hlo, hhi⟩]

theorem inRange.stop (h : inRange geometry w dl count) : u64 (dl + count) = dl + count := by
  have hlt := (geometry w).count_lt
  obtain ⟨h1, h2⟩ := h
  unfold u64
  omega

theorem resolve_count (h : resolve d lba count = .ok dl) : count ≠ 0 := by
  unfold resolve at h
  split at h
  · cases h
  · next hc => exact fun hz => hc (.inl hz)

theorem round_refreshOrDrop : Cache.Round (refreshOrDrop w dl count ss src ok) := by
  intro c i
  fun_cases refreshOrDrop w dl count ss src ok c i
  · exact .inl rfl
  · exact .inr (.inr ⟨_, rfl⟩)
  · exact .inr (.inl rfl)

theorem refreshOrDrop_good (c : Cache) (i : Slot) (hfree : ∀ e : BlkBuf, e.valid = false → Good e)
    (hout : (c.entries i).dev ≠ w ∨ (c.entries i).lba < dl ∨ u64 (dl + count) ≤ (c.entries i).lba →
      Good (c.entries i))
    (hfresh : ok = true → ∀ e : BlkBuf, e.dev = w → dl ≤ e.lba → e.lba < u64 (dl + count) →
      (∀ j < ss, e.data j = sectorOf src dl ss e.lba j) → Good e) :
    Good ((refreshOrDrop w dl count ss src ok c i).entries i) := by
  fun_cases refreshOrDrop w dl count ss src ok c i
  · next b hskip =>
      by_cases hv : b.valid = true
      · exact hout (by simpa [hv] using hskip)
      · exact hfree b (Bool.eq_false_of_not_eq_true hv)
  · next b hrange hok =>
      simp only [not_or, not_lt, not_not, not_le, ge_iff_le] at hrange
      obtain ⟨-, hdev, hlo, hhi⟩ := hrange
      rw [Cache.entries_setEntry_self]
      exact hfresh hok _ hdev hlo hhi fun j hj => if_pos hj
  · exact hfree _ (Cache.valid_unlinkBuf c i)

theorem refreshOrDrop_overwritten (hin : inRange geometry w dl count)
    (hsector : ok = true → sector = sectorOf src dl (geometry w).sectorSize) (c : Cache) (i : Slot)
    (h : Holds geometry disks (c.entries i)) :
    Holds geometry (overwrite disks w dl count sector)
      ((refreshOrDrop w dl count (geometry w).sectorSize src ok c i).entries i) := by
  refine refreshOrDrop_good c i (fun _ => Holds.of_invalid) (fun hout hv j hj => ?_)
    fun hok e hdev hlo hhi hdata _ j hj => ?_
  · rw [hin.stop] at hout
    rw [overwrite_of_out hout]
    exact h hv j hj
  · rw [hin.stop] at hhi
    rw [hdev] at hj ⊢
    rw [overwrite_of_in hlo hhi, hsector hok]
    exact hdata j hj

theorem blkcacheWriteMulti_coherent (h : Coherent geometry s) :
    Coherent geometry (blkcacheWriteMulti geometry s d lba count src t damage).1 := by
  unfold blkcacheWriteMulti
  split
  · exact h
  next dl hres =>
  -- the loop, for whatever has become of the disks
  have hloop : ∀ {disks' : Disks} {ok : Bool},
      (∀ c i, Holds geometry s.disks (c.entries i) →
        Holds geometry disks' ((refreshOrDrop d.whole dl count (geometry d.whole).sectorSize src ok
          c i).entries i)) →
      Coherent geometry ⟨slots.foldl
        (refreshOrDrop d.whole dl count (geometry d.whole).sectorSize src ok)
        s.cache.bumpGen.bumpGen, disks'⟩ := by
    intro disks' ok hround
    obtain ⟨hindex, -, hbytes⟩ := round_refreshOrDrop.loop hround s.cache.bumpGen.bumpGen
      h.index h.bytes
    exact ⟨hindex, hbytes⟩
  rcases blockdevWrite_cases geometry s.disks d.whole dl src t damage (resolve_count hres)
    with ⟨err, hr⟩ | ⟨hin, err, hr⟩ | ⟨hin, hr⟩
  · simp only [hr]
    rw [if_neg (fun hok => nomatch hok.2)]
    exact hloop fun c i hi => refreshOrDrop_good c i (fun _ => Holds.of_invalid) (fun _ => hi) nofun
  · simp only [hr]
    rw [if_neg (fun hok => nomatch hok.2)]
    exact hloop (refreshOrDrop_overwritten hin nofun)
  · simp only [hr]
    split
    · next hone =>
        refine Coherent.fill h.index (fun i hi => ?_) fun b hb => ?_
        · rw [overwrite_of_in le_rfl (by omega), sectorOf, Nat.sub_self, Nat.zero_mul, Nat.zero_add]
        · intro hv j hj
          -- an entry for another sector is outside the one that was written
          have hkey : ¬((s.cache.entries b).dev = d.whole ∧ (s.cache.entries b).lba = dl) :=
            fun hk => hb (Cache.keyOf_eq_some.2 ⟨hv, hk⟩)
          rw [overwrite_of_out]
          · exact h.bytes b hv j hj
          · by_cases hd : (s.cache.entries b).dev = d.whole
            · have hne : (s.cache.entries b).lba ≠ dl := fun hl => hkey ⟨hd, hl⟩
              refine .inr ?_
              change (s.cache.entries b).lba < dl ∨ dl + count ≤ (s.cache.entries b).lba
              omega
            · exact .inl hd
    · exact hloop (refreshOrDrop_overwritten hin fun _ => rfl)

theorem blockdevRead_ok {out' : Buffer}
    (h : blockdevRead geometry disks w dl count out t = .ok out') :
    ∀ i < count * (geometry w).sectorSize,
      out' i = sectors disks w dl (geometry w).sectorSize i := by
  unfold blockdevRead at h
  split at h
  · next hzero =>
      intro i hi
      rw [hzero, Nat.zero_mul] at hi
      exact absurd hi (Nat.not_lt_zero i)
  split at h
  · cases h
  split at h
  · cases h
  · cases h
    intro i hi
    exact if_pos hi

theorem sectors_of_lt {i : Nat} (h : i < ss) : sectors disks w dl ss i = disks w dl i := by
  unfold sectors
  rw [Nat.div_eq_of_lt h, Nat.mod_eq_of_lt h, Nat.add_zero]

theorem blkcacheRead_coherent (h : Coherent geometry s) :
    Coherent geometry (blkcacheRead geometry s d lba out t).1 := by
  unfold blkcacheRead
  split
  · exact h
  next dl _ =>
  dsimp only
  split
  · next b _ =>
      have htouch := h.touch b
      exact ⟨htouch.index, htouch.bytes⟩
  split
  · exact ⟨h.index, h.bytes⟩
  next out' hread =>
  split
  · exact ⟨h.index, h.bytes⟩
  · refine Coherent.fill h.index (fun i hi => ?_) fun b _ => h.bytes b
    rw [blockdevRead_ok hread i (by omega), sectors_of_lt hi]

theorem blkcacheRead_bytes (h : Coherent geometry s) {out' : Buffer}
    (hres : resolve d lba 1 = .ok dl)
    (hok : (blkcacheRead geometry s d lba out t).2 = .ok out') :
    ∀ i < (geometry d.whole).sectorSize, out' i = s.disks d.whole dl i := by
  unfold blkcacheRead at hok
  rw [hres] at hok
  dsimp only at hok
  split at hok
  · next b hb =>
      cases hok
      intro i hi
      rw [Cache.lookup_eq_find] at hb
      obtain ⟨hv, hdev, hlba⟩ := Cache.keyOf_eq_some.1 (HashIndex.key_of_find hb)
      have hget := h.bytes b hv i (by rw [hdev]; exact hi)
      rw [hdev, hlba] at hget
      unfold Cache.touch
      rw [Cache.entries_setEntry_self]
      exact (if_pos hi).trans hget
  · intro i hi
    split at hok
    · cases hok
    next out'' hread =>
    have hread' : out' = out'' := by
      split at hok
      · exact (Except.ok.inj hok).symm
      · exact (Except.ok.inj hok).symm
    rw [hread', blockdevRead_ok hread i (by omega), sectors_of_lt hi]

theorem blkcacheRead_disks : (blkcacheRead geometry s d lba out t).1.disks = s.disks := by
  unfold blkcacheRead
  split
  · rfl
  dsimp only
  split
  · rfl
  split
  · rfl
  split <;> rfl

theorem round_dropDevice : Cache.Round (dropDevice w) := by
  intro c i
  fun_cases dropDevice w c i
  · exact .inr (.inl rfl)
  · exact .inl rfl

theorem dropDevice_good (hfree : ∀ e : BlkBuf, e.valid = false → Good e) (c : Cache) (i : Slot)
    (h : Good (c.entries i)) : Good ((dropDevice w c i).entries i) := by
  fun_cases dropDevice w c i
  · exact hfree _ (Cache.valid_unlinkBuf c i)
  · exact h

theorem blkcacheInvalidate_coherent (h : Coherent geometry s) :
    Coherent geometry (blkcacheInvalidate s d) := by
  obtain ⟨hindex, -, hbytes⟩ := round_dropDevice.loop (dropDevice_good fun _ => Holds.of_invalid)
    s.cache.bumpGen h.index h.bytes
  exact ⟨hindex, hbytes⟩

theorem blkcacheWriteMulti_reached (hres : resolve d lba count = .ok dl)
    (hok : (blkcacheWriteMulti geometry s d lba count src t damage).2 = .ok ()) :
    ∀ l < count, ∀ i < (geometry d.whole).sectorSize,
      (blkcacheWriteMulti geometry s d lba count src t damage).1.disks d.whole (dl + l) i =
        src (l * (geometry d.whole).sectorSize + i) := by
  have hout : (blkcacheWriteMulti geometry s d lba count src t damage).map State.disks id =
      blockdevWrite geometry s.disks d.whole dl count src t damage := by
    unfold blkcacheWriteMulti
    rw [hres]
    dsimp only
    split <;> rfl
  obtain ⟨hdisks, hret⟩ := Prod.ext_iff.1 hout
  dsimp only [Prod.map, id] at hdisks hret
  rw [hret] at hok
  rw [hdisks]
  rcases blockdevWrite_cases geometry s.disks d.whole dl src t damage (resolve_count hres)
    with ⟨err, hr⟩ | ⟨hin, err, hr⟩ | ⟨hin, hr⟩
  · rw [hr] at hok
    cases hok
  · rw [hr] at hok
    cases hok
  · intro l hl i _
    rw [hr]
    dsimp only
    rw [overwrite_of_in (Nat.le_add_right ..) (Nat.add_lt_add_left hl _), sectorOf,
      Nat.add_sub_cancel_left]

theorem blkStep_coherent {s' : State} {a : BlkAct} (h : Coherent geometry s)
    (hs : blkStep geometry s a = some s') : Coherent geometry s' := by
  cases a with
  | read d lba out t =>
      cases hs
      exact blkcacheRead_coherent h
  | readMulti d lba count out t =>
      cases hs
      exact h
  | write d lba src t damage | writeMulti d lba count src t damage =>
      rw [← some.inj hs]
      exact blkcacheWriteMulti_coherent h
  | invalidate d =>
      rw [← some.inj hs]
      exact blkcacheInvalidate_coherent h

theorem BlkInit.coherent (h : BlkInit s) : Coherent geometry s := by
  have hindex : s.cache.index = ⟨fun _ => none, fun _ => []⟩ := by
    unfold Cache.index
    congr 1
    · funext b
      exact Cache.keyOf_eq_none.2 (h.valid b)
    · funext i
      exact h.buckets i
  refine ⟨hindex ▸ HashIndex.Ok.empty, fun b hv => ?_⟩
  cases hv.symm.trans (h.valid b)

/-- After any sequence of calls: a read that succeeds, from the cache or not, of one
sector or of many, returns what the device holds; a write that reports success is on the
device; and no sector is in two valid entries. -/
theorem cache_transparent (hr : (blkSystem geometry).Reach (fun _ _ => True) s) :
    (∀ d lba dl out t out', resolve d lba 1 = .ok dl →
      (blkcacheRead geometry s d lba out t).2 = .ok out' →
      (blkcacheRead geometry s d lba out t).1.disks = s.disks ∧
        ∀ i < (geometry d.whole).sectorSize, out' i = s.disks d.whole dl i) ∧
    (∀ d lba count dl out t out', resolve d lba count = .ok dl →
      blkcacheReadMulti geometry s d lba count out t = .ok out' →
      ∀ i < count * (geometry d.whole).sectorSize,
        out' i = s.disks d.whole (dl + i / (geometry d.whole).sectorSize)
          (i % (geometry d.whole).sectorSize)) ∧
    (∀ d lba count dl src t damage, resolve d lba count = .ok dl →
      (blkcacheWriteMulti geometry s d lba count src t damage).2 = .ok () →
      ∀ l < count, ∀ i < (geometry d.whole).sectorSize,
        (blkcacheWriteMulti geometry s d lba count src t damage).1.disks d.whole (dl + l) i =
          src (l * (geometry d.whole).sectorSize + i)) ∧
    ∀ b b', (s.cache.entries b).valid = true → (s.cache.entries b').valid = true →
      (s.cache.entries b).dev = (s.cache.entries b').dev →
      (s.cache.entries b).lba = (s.cache.entries b').lba → b = b' := by
  have h : Coherent geometry s := hr.invariant (Coherent geometry) (fun _ h => h.coherent)
    (fun _ _ _ h _ hs => blkStep_coherent h hs)
  refine ⟨fun d lba dl out t out' hres hok => ⟨blkcacheRead_disks, blkcacheRead_bytes h hres hok⟩,
    fun d lba count dl out t out' hres hok i hi => ?_,
    fun d lba count dl src t damage hres hok => blkcacheWriteMulti_reached hres hok,
    fun b b' hv hv' hdev hlba => ?_⟩
  · unfold blkcacheReadMulti at hok
    rw [hres] at hok
    exact blockdevRead_ok hok i hi
  · exact h.index.unique b b' _ (Cache.keyOf_eq_some.2 ⟨hv, hdev, hlba⟩)
      (Cache.keyOf_eq_some.2 ⟨hv', rfl, rfl⟩)

end Calls

def smallDisk : Nat → Geometry := fun _ => ⟨512, 256, false, by decide, by decide⟩

def wholeDisk : Blockdev := ⟨0x1000, 0, 256⟩
def partition : Blockdev := ⟨0x1000, 64, 128⟩

def coldCache : State where
  cache := ⟨fun _ => ⟨fun _ => 0, 0, 0, false, 0⟩, fun _ => [], 0, 0, 0, 0⟩
  disks _ _ _ := 0

def writeThenFail : List BlkAct :=
  [.write wholeDisk 70 (fun _ => 0xA5) none fun _ _ => 0,
   .read partition 6 (fun _ => 0) none,
   .writeMulti wholeDisk 69 3 (fun _ => 0x3C) (some .eio) fun _ _ => 0x11,
   .read partition 6 (fun _ => 0) none]

theorem cache_transparent_after_failure :
    ∃ (s : State) (out : Buffer), (blkSystem smallDisk).Reach (fun _ _ => True) s ∧
      s.cache.hits = 1 ∧ (blkcacheRead smallDisk s wholeDisk 70 (fun _ => 0) none).2 = .ok out ∧
      ∀ i < 512, out i = s.disks 0x1000 70 i := by
  obtain ⟨s, hr, hhits, hok⟩ : ∃ s, (blkSystem smallDisk).Reach (fun _ _ => True) s ∧
      s.cache.hits = 1 ∧
        (blkcacheRead smallDisk s wholeDisk 70 (fun _ => 0) none).2.toOption.isSome = true :=
    System.Reach.exists_of_run writeThenFail (s := coldCache) ⟨fun _ => rfl, fun _ => rfl⟩
      (by decide +kernel)
  obtain ⟨out, hout⟩ := isSome_iff_exists.1 hok
  have hread : (blkcacheRead smallDisk s wholeDisk 70 (fun _ => 0) none).2 = .ok out := by
    cases h : (blkcacheRead smallDisk s wholeDisk 70 (fun _ => 0) none).2 with
    | error err =>
        rw [h] at hout
        cases hout
    | ok x =>
        rw [h] at hout
        exact congrArg Except.ok (some.inj hout)
  exact ⟨s, out, hr, hhits, hread, ((cache_transparent hr).1 _ _ _ _ _ _ rfl hread).2⟩

end NeoKernel.Block
