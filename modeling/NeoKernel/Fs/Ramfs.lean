import NeoKernel.Errno
import NeoKernel.Lib.Trans
import NeoKernel.Lib.Update

/-!
# Files of ramfs (kernel/fs/ramfs.c)

The pages of a file are allocated by the writes that reach them; one that is not there reads as
zeros. A position is one that `lseek`, `pread` and `pwrite` let through: not negative as an `off_t`.
-/
namespace NeoKernel.Ramfs
open Lib Function List

def pmmFrameSize : Nat := 4096
def ramfsMaxPages : Nat := 4

structure RamfsNode where
  size : Nat
  -- what is in the frame of each page, none for 0
  pages : Nat → Option (Nat → UInt8)

def overlay (f : Nat → UInt8) (pos : Nat) (xs : List UInt8) (x : Nat) : UInt8 :=
  if pos ≤ x then xs[x - pos]?.getD (f x) else f x

section Calls

variable (n : RamfsNode)

/-- A byte of a page; a page that is not there is a hole. -/
def RamfsNode.at (page k : Nat) : UInt8 := (n.pages page).elim 0 (· k)

def readLoop : Nat → Nat → Nat → List UInt8
  | 0, _, _ => []
  | fuel + 1, off, len =>
      let page := off / pmmFrameSize
      let inPage := off % pmmFrameSize
      let chunk := min (pmmFrameSize - inPage) len
      if len = 0 ∨ ramfsMaxPages ≤ page then []
      else (List.range chunk).map (fun k => n.at page (inPage + k)) ++
        readLoop fuel (off + chunk) (len - chunk)

def ramfsRead (pos len : Nat) : List UInt8 :=
  if n.size ≤ pos then []
  else
    let len := if pos + len > n.size then n.size - pos else len
    readLoop n len pos len

/-- The frame of a page, a zeroed one if `pmm_alloc` has to be called and `alloc` is its answer. -/
def pageFrame (page : Nat) (alloc : Bool) : Option (Nat → UInt8) :=
  (n.pages page).or (if alloc then some fun _ => 0 else none)

def setPage (page : Nat) (dst : Nat → UInt8) : RamfsNode :=
  { n with pages := update n.pages page (some dst) }

/-- The loop of `ramfs_write`, and whether it ends. -/
def writeLoop (allocs : Nat → Bool) : Nat → RamfsNode → Nat → List UInt8 → RamfsNode × Bool
  | 0, n, _, _ => (n, true)
  | fuel + 1, n, off, src =>
      if src = [] then (n, true)
      else
        let page := off / pmmFrameSize
        let inPage := off % pmmFrameSize
        let chunk := min (pmmFrameSize - inPage) src.length
        match pageFrame n page (allocs page) with
        | none => (n, false)
        | some dst =>
            let dst := overlay dst inPage (src.take chunk)
            writeLoop allocs fuel (setPage n page dst) (off + chunk) (src.drop chunk)

def ramfsWrite (pos : Nat) (src : List UInt8) (allocs : Nat → Bool) :
    RamfsNode × Except Errno Nat :=
  if pos + src.length > ramfsMaxPages * pmmFrameSize then (n, .error .efbig)
  else
    match writeLoop allocs src.length n pos src with
    | (n, false) => (n, .error .enospc)
    | (n, true) => ({ n with size := max n.size (pos + src.length) }, .ok src.length)

def ramfsTruncate : RamfsNode where
  size := 0
  pages := fun _ => none

def cutPages (len page : Nat) : Option (Nat → UInt8) :=
  if (len + pmmFrameSize - 1) / pmmFrameSize ≤ page then none
  else if len % pmmFrameSize ≠ 0 ∧ page = len / pmmFrameSize then
    (n.pages page).map fun z k => if len % pmmFrameSize ≤ k then 0 else z k
  else n.pages page

def ramfsTruncateTo (len : Nat) : RamfsNode × Except Errno Unit :=
  if len > ramfsMaxPages * pmmFrameSize then (n, .error .efbig)
  else (⟨len, if len < n.size then cutPages n len else n.pages⟩, .ok ())

end Calls

/-! ## A sparse array -/

structure ByteArr where
  size : Nat
  byte : Nat → UInt8

namespace ByteArr

def empty : ByteArr := ⟨0, fun _ => 0⟩

def read (a : ByteArr) (pos len : Nat) : List UInt8 :=
  (List.range (min len (a.size - pos))).map fun k => a.byte (pos + k)

def write (a : ByteArr) (pos : Nat) (src : List UInt8) : ByteArr :=
  ⟨max a.size (pos + src.length), overlay a.byte pos src⟩

def resize (a : ByteArr) (len : Nat) : ByteArr :=
  ⟨len, fun x => if x < len then a.byte x else 0⟩

end ByteArr

/-- A file, and the array that the calls which succeed have made. -/
structure Files where
  node : RamfsNode
  array : ByteArr

def Files.after {α : Type} (s : Files) (a : ByteArr) : RamfsNode × Except Errno α → Files
  | (n, .ok _) => ⟨n, a⟩
  | (n, .error _) => ⟨n, s.array⟩

inductive RamfsAct where
  | write (pos : Nat) (src : List UInt8) (allocs : Nat → Bool)
  | truncate
  | truncateTo (len : Nat)

def ramfsStep (s : Files) : RamfsAct → Option Files
  | .write pos src allocs =>
      if pos < 2 ^ 63 ∧ src.length < 2 ^ 32 then
        some (s.after (s.array.write pos src) (ramfsWrite s.node pos src allocs))
      else none
  | .truncate => some ⟨ramfsTruncate, .empty⟩
  | .truncateTo len => some (s.after (s.array.resize len) (ramfsTruncateTo s.node len))

def ramfsSystem : System Files RamfsAct where
  init s := s = ⟨ramfsTruncate, .empty⟩
  step := ramfsStep

/-- Memory is lacking for the first page of a write, or for none. -/
def Supplied (_ : Files) : RamfsAct → Prop
  | .write pos _ allocs => ∀ page, pos / pmmFrameSize < page → allocs page = true
  | _ => True

section Loops

variable {n : RamfsNode} {off fuel len : Nat} {src : List UInt8} {allocs : Nat → Bool}

def RamfsNode.byte (n : RamfsNode) (x : Nat) : UInt8 :=
  n.at (x / pmmFrameSize) (x % pmmFrameSize)

theorem overlay_nil (f : Nat → UInt8) (pos : Nat) : overlay f pos [] = f :=
  funext fun _ => ite_self _

theorem overlay_append (f : Nat → UInt8) (pos : Nat) (xs ys : List UInt8) :
    overlay (overlay f pos xs) (pos + xs.length) ys = overlay f pos (xs ++ ys) := by
  funext x
  unfold overlay
  split
  · next hx =>
      rw [if_pos (by omega), if_pos (by omega), getElem?_append_right (by omega), Nat.sub_sub,
        getElem?_eq_none (by omega : xs.length ≤ x - pos)]
      rfl
  · split
    · rw [getElem?_append_left (by omega)]
    · rfl

theorem at_eq_byte {k : Nat} (hk : k < pmmFrameSize - off % pmmFrameSize) :
    n.at (off / pmmFrameSize) (off % pmmFrameSize + k) = n.byte (off + k) := by
  unfold pmmFrameSize at hk
  have hdiv : (off + k) / 4096 = off / 4096 := by omega
  have hmod : (off + k) % 4096 = off % 4096 + k := by omega
  simp only [RamfsNode.byte, pmmFrameSize, hdiv, hmod]

theorem readLoop_eq (hfuel : len ≤ fuel) (hend : off + len ≤ ramfsMaxPages * pmmFrameSize) :
    readLoop n fuel off len = (List.range len).map fun k => n.byte (off + k) := by
  induction fuel generalizing off len with
  | zero =>
      obtain rfl : len = 0 := Nat.le_zero.1 hfuel
      rfl
  | succ fuel ih =>
      unfold readLoop
      dsimp only
      split
      · next hstop =>
          have hlen : len = 0 := by
            unfold ramfsMaxPages pmmFrameSize at *
            omega
          rw [hlen]
          rfl
      · generalize hchunk : min (pmmFrameSize - off % pmmFrameSize) len = chunk
        have hpos : 0 < chunk ∧ chunk ≤ len := by
          unfold pmmFrameSize at *
          omega
        have hfirst : (List.range chunk).map
            (fun k => n.at (off / pmmFrameSize) (off % pmmFrameSize + k)) =
              (List.range chunk).map fun k => n.byte (off + k) := by
          refine map_congr_left fun k hk => at_eq_byte ?_
          have hk := mem_range.1 hk
          omega
        obtain ⟨rest, rfl⟩ := Nat.exists_eq_add_of_le hpos.2
        rw [ih (by omega) (by omega), hfirst, Nat.add_sub_cancel_left, range_add,
          map_append, map_map]
        simp only [comp_def, Nat.add_assoc]

theorem byte_setPage {dst : Nat → UInt8} {alloc : Bool} (xs : List UInt8)
    (hdst : pageFrame n (off / pmmFrameSize) alloc = some dst)
    (hlen : xs.length ≤ pmmFrameSize - off % pmmFrameSize) :
    (setPage n (off / pmmFrameSize) (overlay dst (off % pmmFrameSize) xs)).byte =
      overlay n.byte off xs := by
  have hold : ∀ k, dst k = n.at (off / pmmFrameSize) k := by
    intro k
    unfold pageFrame at hdst
    unfold RamfsNode.at
    cases hp : n.pages (off / pmmFrameSize) with
    | none =>
        rw [hp] at hdst
        obtain ⟨-, ⟨⟩⟩ := Option.ite_none_right_eq_some.1 hdst
        rfl
    | some z =>
        rw [hp] at hdst
        cases hdst
        rfl
  funext x
  unfold RamfsNode.byte overlay setPage RamfsNode.at
  dsimp only
  by_cases hpage : x / pmmFrameSize = off / pmmFrameSize
  · rw [hpage, update_self]
    change (if _ then xs[_]?.getD (dst _) else dst _) = _
    rw [hold]
    unfold pmmFrameSize at *
    have hle : off % 4096 ≤ x % 4096 ↔ off ≤ x := by omega
    have hsub : x % 4096 - off % 4096 = x - off := by omega
    simp only [hle, hsub]
    rfl
  · rw [update_of_ne hpage]
    unfold pmmFrameSize at *
    split
    · rw [getElem?_eq_none (by omega)]
      rfl
    · rfl

/-- A pass with a frame at hand ends the loop, or comes to the next page. -/
theorem writeLoop_pass (fuel : Nat) {dst : Nat → UInt8} (hne : src ≠ [])
    (hdst : pageFrame n (off / pmmFrameSize) (allocs (off / pmmFrameSize)) = some dst) :
    ∃ n' chunk, writeLoop allocs (fuel + 1) n off src =
        writeLoop allocs fuel n' (off + chunk) (src.drop chunk) ∧
      0 < chunk ∧ chunk ≤ src.length ∧
      (chunk < src.length → off / pmmFrameSize < (off + chunk) / pmmFrameSize) ∧
      n'.size = n.size ∧ n'.byte = overlay n.byte off (src.take chunk) := by
  have hpos := length_pos_iff.2 hne
  rw [writeLoop, if_neg hne]
  dsimp only
  rw [hdst]
  generalize hchunk : min (pmmFrameSize - off % pmmFrameSize) src.length = chunk
  have hlen : (src.take chunk).length ≤ pmmFrameSize - off % pmmFrameSize := by
    rw [length_take]
    omega
  refine ⟨_, chunk, rfl, ?_, by omega, fun hlt => ?_, rfl, byte_setPage _ hdst hlen⟩
  · unfold pmmFrameSize at *
    omega
  · unfold pmmFrameSize at *
    omega

theorem writeLoop_spec (hfuel : src.length ≤ fuel)
    (hallocs : ∀ page, off / pmmFrameSize < page → allocs page = true)
    (hdst : src ≠ [] →
      ∃ dst, pageFrame n (off / pmmFrameSize) (allocs (off / pmmFrameSize)) = some dst) :
    ∃ n', writeLoop allocs fuel n off src = (n', true) ∧ n'.size = n.size ∧
      n'.byte = overlay n.byte off src := by
  induction fuel generalizing n off src with
  | zero =>
      obtain rfl : src = [] := length_eq_zero_iff.1 (Nat.le_zero.1 hfuel)
      exact ⟨n, rfl, rfl, (overlay_nil ..).symm⟩
  | succ fuel ih =>
      by_cases hne : src = []
      · rw [hne]
        exact ⟨n, rfl, rfl, (overlay_nil ..).symm⟩
      · obtain ⟨dst, hdst⟩ := hdst hne
        obtain ⟨n₁, chunk, heq, hpos, hle, hnext, hsize, hbyte⟩ := writeLoop_pass fuel hne hdst
        have hpage : off / pmmFrameSize ≤ (off + chunk) / pmmFrameSize :=
          Nat.div_le_div_right (Nat.le_add_right ..)
        have hlen : (src.drop chunk).length = src.length - chunk := length_drop
        obtain ⟨n₂, heq₂, hsize₂, hbyte₂⟩ : ∃ n', writeLoop allocs fuel n₁ (off + chunk)
            (src.drop chunk) = (n', true) ∧ n'.size = n₁.size ∧
              n'.byte = overlay n₁.byte (off + chunk) (src.drop chunk) := by
          refine ih (by omega) (fun page hp => hallocs page (Nat.lt_of_le_of_lt hpage hp))
            fun hrest => ?_
          have hmore := length_pos_iff.2 hrest
          rw [hallocs _ (hnext (by omega)), pageFrame]
          cases n₁.pages ((off + chunk) / pmmFrameSize) <;> exact ⟨_, rfl⟩
        refine ⟨n₂, heq.trans heq₂, hsize₂.trans hsize, ?_⟩
        have happ := overlay_append n.byte off (src.take chunk) (src.drop chunk)
        rw [length_take_of_le hle, take_append_drop] at happ
        rw [hbyte₂, hbyte, happ]

end Loops

structure Agree (s : Files) : Prop where
  size : s.node.size = s.array.size
  byte : s.node.byte = s.array.byte
  zero : ∀ x, s.array.size ≤ x → s.array.byte x = 0
  bound : s.array.size ≤ ramfsMaxPages * pmmFrameSize

section Agree

variable {n : RamfsNode} {s : Files} {pos len : Nat} {src : List UInt8} {allocs : Nat → Bool}

theorem agree_empty : Agree ⟨ramfsTruncate, .empty⟩ := ⟨rfl, rfl, fun _ _ => rfl, Nat.zero_le _⟩

theorem Agree.read (h : Agree s) : ramfsRead s.node pos len = s.array.read pos len := by
  obtain ⟨hsize, hbyte, -, hbound⟩ := h
  unfold ramfsRead ByteArr.read
  rw [← hsize, ← hbyte]
  rw [← hsize] at hbound
  split
  · next hpast => rw [Nat.sub_eq_zero_of_le hpast, Nat.min_zero]; rfl
  · have hlen : (if pos + len > s.node.size then s.node.size - pos else len) =
      min len (s.node.size - pos) := by
      split <;> omega
    dsimp only
    rw [hlen]
    exact readLoop_eq (Nat.le_refl _) (by omega)

/-- Without a frame for its first page a write changes nothing. -/
theorem writeLoop_all_or_none (n : RamfsNode) (src : List UInt8)
    (hallocs : ∀ page, pos / pmmFrameSize < page → allocs page = true) :
    writeLoop allocs src.length n pos src = (n, false) ∨
      ∃ n', writeLoop allocs src.length n pos src = (n', true) ∧ n'.size = n.size ∧
        n'.byte = overlay n.byte pos src := by
  cases src with
  | nil => exact .inr ⟨n, rfl, rfl, (overlay_nil ..).symm⟩
  | cons b src =>
      cases hdst : pageFrame n (pos / pmmFrameSize) (allocs (pos / pmmFrameSize)) with
      | some dst => exact .inr (writeLoop_spec (Nat.le_refl _) hallocs fun _ => ⟨dst, hdst⟩)
      | none =>
          refine .inl ?_
          rw [length_cons, writeLoop, if_neg (cons_ne_nil b src)]
          dsimp only
          rw [hdst]

theorem Agree.write (h : Agree s)
    (hallocs : ∀ page, pos / pmmFrameSize < page → allocs page = true) :
    Agree (s.after (s.array.write pos src) (ramfsWrite s.node pos src allocs)) := by
  unfold ramfsWrite
  split
  · exact h
  next hroom =>
  obtain heq | ⟨n, heq, hsize, hbyte⟩ := writeLoop_all_or_none s.node src hallocs
  · rw [heq]
    exact h
  · rw [heq]
    refine ⟨?_, hbyte.trans (congrArg (overlay · pos src) h.byte), fun x hx => ?_, ?_⟩
    · change max n.size _ = max s.array.size _
      rw [hsize, h.size]
    · have hx : max s.array.size (pos + src.length) ≤ x := hx
      change overlay s.array.byte pos src x = 0
      unfold overlay
      rw [getElem?_eq_none (by omega)]
      exact (ite_self _).trans (h.zero x (by omega))
    · exact Nat.max_le.2 ⟨h.bound, Nat.le_of_not_lt hroom⟩

theorem byte_cutPages (n : RamfsNode) (len x : Nat) :
    RamfsNode.byte ⟨len, cutPages n len⟩ x = if x < len then n.byte x else 0 := by
  unfold RamfsNode.byte RamfsNode.at cutPages
  dsimp only
  unfold pmmFrameSize
  split
  · rw [if_neg (by omega)]
    rfl
  · split
    · next hpage =>
        have hlt : len % 4096 ≤ x % 4096 ↔ ¬ x < len := by omega
        cases n.pages (x / 4096) with
        | none => exact (ite_self _).symm
        | some z =>
            change (if len % 4096 ≤ x % 4096 then 0 else z _) = _
            rw [if_congr hlt rfl rfl, ite_not]
            rfl
    · rw [if_pos (by omega)]

theorem Agree.resize (h : Agree s) (len : Nat) :
    Agree (s.after (s.array.resize len) (ramfsTruncateTo s.node len)) := by
  unfold ramfsTruncateTo
  split
  · exact h
  next hroom =>
  refine ⟨rfl, ?_, fun x hx => if_neg (Nat.not_lt.2 hx), Nat.le_of_not_lt hroom⟩
  funext x
  change RamfsNode.byte ⟨len, if _ then _ else _⟩ x = if x < len then s.array.byte x else 0
  rw [← h.byte]
  split
  · exact byte_cutPages s.node len x
  · next hgrow =>
      change s.node.byte x = _
      split
      · rfl
      · next hx =>
          rw [h.byte]
          have hsize := h.size
          exact h.zero x (by omega)

theorem Agree.step {s' : Files} {act : RamfsAct} (h : Agree s) (hok : Supplied s act)
    (hs : ramfsStep s act = some s') : Agree s' := by
  cases act with
  | write pos src allocs =>
      obtain ⟨-, ⟨⟩⟩ := Option.ite_none_right_eq_some.1 hs
      exact h.write hok
  | truncate =>
      cases hs
      exact agree_empty
  | truncateTo len =>
      cases hs
      exact h.resize len

end Agree

/-- In every run in which memory is lacking for the first page of a write or for none, a file reads
as the array that the calls which succeeded have made. -/
theorem ramfs_refines_array {s : Files} (hr : ramfsSystem.Reach Supplied s) (pos len : Nat) :
    ramfsRead s.node pos len = s.array.read pos len ∧ s.node.size = s.array.size := by
  have h : Agree s := by
    refine hr.invariant Agree ?_ fun _ _ _ h hok hs => h.step hok hs
    rintro _ rfl
    exact agree_empty
  exact ⟨h.read, h.size⟩

/-- Two bytes over the end of the first page, and a cut to that page. -/
theorem ramfs_refines_array_pages : ∃ s : Files, ramfsSystem.Reach Supplied s ∧
    ramfsRead s.node 4094 4 = [0, 1] ∧ s.array.size = 4096 := by
  obtain ⟨s, hr, hs⟩ : ∃ s, ramfsSystem.Reach Supplied s ∧
      s.array.size = 4096 ∧ s.array.read 4094 4 = [0, 1] := by
    refine ⟨_, .step (.step (.init rfl) (a := .write 4095 [1, 2] fun _ => true) ?_ rfl)
      (a := .truncateTo 4096) trivial rfl, rfl, by decide +kernel⟩
    exact fun _ _ => rfl
  exact ⟨s, hr, (ramfs_refines_array hr 4094 4).1.trans hs.2, hs.1⟩

/-- A write fails at its second page with the last byte of the first one in place, and a growth
over it makes that byte one of the file. -/
theorem failed_write_shows : ∃ s : Files, ramfsSystem.Reach (fun _ _ => True) s ∧
    ramfsRead s.node 4095 1 = [1] ∧ s.array.read 4095 1 = [0] := by
  refine ⟨_, .step (.step (.init rfl) (a := .write 4095 [1, 2] fun page => page == 0) trivial rfl)
    (a := .truncateTo 4096) trivial rfl, ?_, ?_⟩ <;> decide +kernel

end NeoKernel.Ramfs
