import Mathlib.Data.List.DropRight
import NeoKernel.Errno

/-!
# Canonical paths (kernel/fs/vfs.c)

A string is the list of its bytes without the zero at its end. Of the output buffer the model
keeps the live prefix, without the slash it begins with.
-/
namespace NeoKernel.Vfs
open List

def vfsMaxPath : Nat := 512
def vfsNameMax : Nat := 256

def slash : UInt8 := 0x2f
def dot : UInt8 := 0x2e

/-- The next component, cut to what `name` holds, and where the scan goes on. -/
def nextComponent (s : List UInt8) : Option (List UInt8 × List UInt8) :=
  match s.dropWhile (· = slash) with
  | [] => none
  | s@(_ :: _) => some ((s.takeWhile (· ≠ slash)).take (vfsNameMax - 1), s.dropWhile (· ≠ slash))

def canonPush (out name : List UInt8) : Except Errno (List UInt8) :=
  if name = [dot] then .ok out
  else if name = [dot, dot] then .ok (out.rdropWhile (· ≠ slash)).dropLast
  else
    let sep := if out = [] then [] else [slash]
    if 1 + out.length + sep.length + name.length + 1 > vfsMaxPath then .error .enametoolong
    else .ok (out ++ sep ++ name)

/-- The loop over the components of `s`. There are no more of them than bytes. -/
def pushAll : Nat → List UInt8 → List UInt8 → Except Errno (List UInt8)
  | 0, out, _ => .ok out
  | fuel + 1, out, s =>
      match nextComponent s with
      | none => .ok out
      | some (name, s) =>
          match canonPush out name with
          | .error e => .error e
          | .ok out => pushAll fuel out s

/-- The base counts for a relative path only. -/
def seed (base : Option (List UInt8)) (path : List UInt8) : List UInt8 :=
  if path.head? = some slash then [] else base.getD []

def vfsPathCanonicalise (base : Option (List UInt8)) (path : List UInt8) :
    Except Errno (List UInt8) :=
  match pushAll (seed base path).length [] (seed base path) with
  | .error e => .error e
  | .ok out => (pushAll path.length out path).map (slash :: ·)

/-! ## Lexical normalisation -/

/-- What stands between slashes, where that is not empty. -/
def components (s : List UInt8) : List (List UInt8) := (s.splitOn slash).filter (· ≠ [])

def joined (base : Option (List UInt8)) (path : List UInt8) : List (List UInt8) :=
  components (seed base path) ++ components path

/-- `.` stays and `..` goes back, but not above the root. -/
def follow (cs : List (List UInt8)) (c : List UInt8) : List (List UInt8) :=
  if c = [dot] then cs else if c = [dot, dot] then cs.dropLast else cs ++ [c]

def normalise (cs : List (List UInt8)) : List (List UInt8) := cs.foldl follow []

def cut (c : List UInt8) : List UInt8 := c.take (vfsNameMax - 1)

section Scan

variable {s name rest out : List UInt8} {fuel : Nat}

theorem components_append (xs ys : List UInt8) :
    components (xs ++ slash :: ys) = components xs ++ components ys := by
  unfold components
  rw [splitOn_append_cons_self, filter_append]

theorem components_slash (ys : List UInt8) : components (slash :: ys) = components ys :=
  components_append [] ys

theorem components_of_notMem (hs : slash ∉ s) (hne : s ≠ []) : components s = [s] := by
  unfold components
  rw [splitOn_eq_singleton hs]
  simp [hne]

theorem components_dropWhile (s : List UInt8) :
    components (s.dropWhile (· = slash)) = components s := by
  induction s with
  | nil => rfl
  | cons c s ih =>
      by_cases hc : c = slash
      · rw [dropWhile_cons_of_pos (by simpa using hc), ih, hc, components_slash]
      · rw [dropWhile_cons_of_neg (by simpa using hc)]

theorem nextComponent_none (h : nextComponent s = none) : components s = [] := by
  rw [← components_dropWhile]
  unfold nextComponent at h
  split at h
  · next hnil =>
      rw [hnil]
      rfl
  · cases h

theorem nextComponent_some (h : nextComponent s = some (name, rest)) :
    rest.length < s.length ∧ ∃ c, name = cut c ∧ c ≠ [] ∧ slash ∉ c ∧
      components s = c :: components rest := by
  unfold nextComponent at h
  split at h
  · cases h
  next c t hdrop =>
  cases h
  have hc : c ≠ slash := by
    have hhead := head?_dropWhile_not (fun b => decide (b = slash)) s
    rw [hdrop] at hhead
    simpa using hhead
  have hword : (c :: t).takeWhile (· ≠ slash) = c :: t.takeWhile (· ≠ slash) :=
    takeWhile_cons_of_pos (by simpa using hc)
  have hnot : slash ∉ (c :: t).takeWhile (· ≠ slash) := fun hm => by
    simpa using mem_takeWhile_imp hm
  have hlen := (dropWhile_suffix (fun b => decide (b ≠ slash)) (l := t)).length_le
  have hle := (dropWhile_suffix (fun b => decide (b = slash)) (l := s)).length_le
  rw [hdrop, length_cons] at hle
  refine ⟨?_, _, rfl, by rw [hword]; nofun, hnot, ?_⟩
  · rw [dropWhile_cons_of_pos (by simpa using hc)]
    omega
  · rw [← components_dropWhile, hdrop]
    nth_rewrite 1 [← takeWhile_append_dropWhile (p := fun b => decide (b ≠ slash))
      (l := c :: t)]
    cases hrest : (c :: t).dropWhile (· ≠ slash) with
    | nil =>
        rw [append_nil, components_of_notMem hnot (by rw [hword]; nofun)]
        rfl
    | cons d r =>
        have hd : d = slash := by
          have hhead := head?_dropWhile_not (fun b => decide (b ≠ slash)) (c :: t)
          rw [hrest] at hhead
          simpa using hhead
        rw [hd, components_append, components_of_notMem hnot (by rw [hword]; nofun),
          components_slash]
        rfl

end Scan

theorem slash_notMem_components (s : List UInt8) : ∀ c ∈ components s, c ≠ [] ∧ slash ∉ c := by
  induction hn : s.length using Nat.strong_induction_on generalizing s with
  | _ n ih =>
      subst hn
      cases h : nextComponent s with
      | none =>
          rw [nextComponent_none h]
          exact fun c hc => absurd hc not_mem_nil
      | some r =>
          obtain ⟨hlt, c, -, hne, hslash, heq⟩ := nextComponent_some h
          rw [heq]
          exact forall_mem_cons.2 ⟨⟨hne, hslash⟩, ih _ hlt _ rfl⟩

theorem pushAll_eq {fuel : Nat} {s : List UInt8} (out : List UInt8) (hlen : s.length ≤ fuel) :
    pushAll fuel out s = ((components s).map cut).foldlM canonPush out := by
  induction fuel generalizing s out with
  | zero =>
      obtain rfl : s = [] := length_eq_zero_iff.1 (Nat.le_zero.1 hlen)
      rfl
  | succ fuel ih =>
      unfold pushAll
      cases h : nextComponent s with
      | none =>
          rw [nextComponent_none h]
          rfl
      | some r =>
          obtain ⟨hlt, c, hname, -, -, heq⟩ := nextComponent_some h
          rw [heq, map_cons, foldlM_cons, ← hname]
          dsimp only
          cases canonPush out r.1 with
          | error e => rfl
          | ok out => exact ih out (by omega)

theorem vfsPathCanonicalise_eq (base : Option (List UInt8)) (path : List UInt8) :
    vfsPathCanonicalise base path =
      (((joined base path).map cut).foldlM canonPush []).map (slash :: ·) := by
  unfold vfsPathCanonicalise joined
  rw [pushAll_eq _ le_rfl, map_append, foldlM_append]
  cases ((components (seed base path)).map cut).foldlM canonPush [] with
  | error e => rfl
  | ok out => exact congrArg (Except.map (slash :: ·)) (pushAll_eq out le_rfl)

structure Proper (c : List UInt8) : Prop where
  nonempty : c ≠ []
  apart : slash ∉ c
  notDot : c ≠ [dot]
  notDotdot : c ≠ [dot, dot]
  short : c.length < vfsNameMax

section Push

variable {cs names : List (List UInt8)} {out name : List UInt8}

theorem intercalate_concat (cs : List (List UInt8)) (c : List UInt8) :
    [slash].intercalate (cs ++ [c]) =
      [slash].intercalate cs ++ (if cs = [] then [] else [slash]) ++ c := by
  induction cs with
  | nil => simp
  | cons d cs ih =>
      cases cs with
      | nil => simp
      | cons e cs =>
          rw [cons_append, cons_append, intercalate_cons_cons, ← cons_append, ih,
            intercalate_cons_cons]
          simp

theorem components_intercalate (h : ∀ c ∈ cs, Proper c) :
    components ([slash].intercalate cs) = cs := by
  by_cases hcs : cs = []
  · rw [hcs]
    rfl
  · unfold components
    rw [splitOn_intercalate slash (fun c hc => (h c hc).apart) hcs, filter_eq_self]
    intro c hc
    simpa using (h c hc).nonempty

theorem intercalate_eq_nil (h : ∀ c ∈ cs, Proper c) : [slash].intercalate cs = [] ↔ cs = [] := by
  constructor
  · intro hnil
    rw [← components_intercalate h, hnil]
    rfl
  · rintro rfl
    rfl

theorem rdropWhile_intercalate (h : ∀ c ∈ cs, Proper c) :
    (([slash].intercalate cs).rdropWhile (· ≠ slash)).dropLast =
      [slash].intercalate cs.dropLast := by
  rcases eq_nil_or_concat cs with rfl | ⟨cs, c, rfl⟩
  · rfl
  · have hc : ∀ b ∈ c.reverse, decide (b ≠ slash) = true := by
      intro b hb
      have hmem := mem_reverse.1 hb
      exact decide_eq_true fun heq => (h c (by simp)).apart (heq ▸ hmem)
    rw [concat_eq_append, intercalate_concat, dropLast_concat, List.rdropWhile,
      reverse_append, dropWhile_append_of_pos hc]
    split
    · next hnil =>
        rw [hnil]
        rfl
    · rw [reverse_append, reverse_singleton, singleton_append,
        dropWhile_cons_of_neg (by simp), reverse_cons, reverse_reverse,
        dropLast_concat]

/-- The buffer holds the components that the normalisation has. -/
structure Holds (out : List UInt8) (cs : List (List UInt8)) : Prop where
  eq : out = [slash].intercalate cs
  proper : ∀ c ∈ cs, Proper c
  fits : 1 + out.length < vfsMaxPath

theorem Holds.push (h : Holds out cs) (hne : name ≠ []) (hslash : slash ∉ name)
    (hshort : name.length < vfsNameMax) {out' : List UInt8} (hs : canonPush out name = .ok out') :
    Holds out' (follow cs name) := by
  obtain ⟨rfl, hproper, hfits⟩ := h
  revert hs
  unfold follow
  fun_cases canonPush ([slash].intercalate cs) name with
  | case1 hdot =>
      rintro ⟨⟩
      rw [if_pos hdot]
      exact ⟨rfl, hproper, hfits⟩
  | case2 hdot hdotdot =>
      rintro ⟨⟩
      rw [if_neg hdot, if_pos hdotdot]
      refine ⟨rdropWhile_intercalate hproper, fun c hc => hproper c (dropLast_subset _ hc), ?_⟩
      have hle := (List.rdropWhile_prefix (fun b => decide (b ≠ slash))
        (l := [slash].intercalate cs)).length_le
      rw [length_dropLast]
      omega
  | case3 => nofun
  | case4 hdot hdotdot sep hroom =>
      rintro ⟨⟩
      rw [if_neg hdot, if_neg hdotdot]
      refine ⟨?_, fun c hc => ?_, ?_⟩
      · rw [intercalate_concat]
        simp only [sep, intercalate_eq_nil hproper]
      · rcases mem_append.1 hc with hc | hc
        · exact hproper c hc
        · rw [mem_singleton.1 hc]
          exact ⟨hne, hslash, hdot, hdotdot, hshort⟩
      · rw [length_append, length_append]
        omega

theorem Holds.pushes (h : Holds out cs)
    (hnames : ∀ c ∈ names, c ≠ [] ∧ slash ∉ c ∧ c.length < vfsNameMax) {out' : List UInt8}
    (hs : names.foldlM canonPush out = .ok out') :
    Holds out' (names.foldl follow cs) := by
  induction names generalizing out cs with
  | nil =>
      cases hs
      exact h
  | cons c names ih =>
      obtain ⟨⟨hne, hslash, hshort⟩, hnames⟩ := forall_mem_cons.1 hnames
      rw [foldlM_cons] at hs
      cases hp : canonPush out c with
      | error e =>
          rw [hp] at hs
          cases hs
      | ok out₁ =>
          rw [hp] at hs
          exact ih (h.push hne hslash hshort hp) hnames hs

/-- What the buffer holds is put there again by its own components. -/
theorem Holds.again (h : Holds out cs) : cs.foldlM canonPush [] = .ok out := by
  obtain ⟨rfl, hproper, hfits⟩ := h
  induction cs using List.reverseRecOn with
  | nil => rfl
  | append_singleton cs c ih =>
      have hcs : ∀ d ∈ cs, Proper d := fun d hd => hproper d (mem_append_left _ hd)
      have hc := hproper c (by simp)
      rw [intercalate_concat] at hfits ⊢
      rw [length_append, length_append] at hfits
      rw [foldlM_append, ih hcs (by omega)]
      change ([c].foldlM canonPush ([slash].intercalate cs)) = _
      rw [foldlM_cons, canonPush, if_neg hc.notDot, if_neg hc.notDotdot]
      simp only [intercalate_eq_nil hcs]
      rw [if_neg (by omega)]
      rfl

end Push

theorem cut_of_short {c : List UInt8} (h : c.length < vfsNameMax) : cut c = c :=
  take_of_length_le (Nat.le_pred_of_lt h)

theorem cut_joined (base : Option (List UInt8)) (path : List UInt8) :
    ∀ c ∈ (joined base path).map cut, c ≠ [] ∧ slash ∉ c ∧ c.length < vfsNameMax := by
  intro c hc
  obtain ⟨d, hd, rfl⟩ := mem_map.1 hc
  have hd : d ≠ [] ∧ slash ∉ d := (mem_append.1 hd).elim
    (slash_notMem_components _ d) (slash_notMem_components _ d)
  refine ⟨?_, fun hm => hd.2 (mem_of_mem_take hm), ?_⟩
  · unfold cut
    rw [Ne, take_eq_nil_iff]
    exact fun h => h.elim (by decide) hd.1
  · exact (length_take_le ..).trans_lt (by decide)

/-- A path that is accepted becomes a slash and the normalised components, each cut to what a name
holds, with single slashes between them; and it is its own canonical form. -/
theorem canonical_path {base : Option (List UInt8)} {path out : List UInt8}
    (h : vfsPathCanonicalise base path = .ok out) :
    out.head? = some slash ∧ out.length < vfsMaxPath ∧
      components out = normalise ((joined base path).map cut) ∧
      (∀ c ∈ components out, c ≠ [dot] ∧ c ≠ [dot, dot]) ∧
      out = slash :: [slash].intercalate (components out) ∧
      ∀ base', vfsPathCanonicalise base' out = .ok out := by
  rw [vfsPathCanonicalise_eq] at h
  cases hp : ((joined base path).map cut).foldlM canonPush [] with
  | error e =>
      rw [hp] at h
      cases h
  | ok text =>
      rw [hp] at h
      cases h
      have hstart : Holds [] [] := ⟨rfl, fun c hc => absurd hc not_mem_nil, by decide⟩
      have hholds : Holds text (normalise ((joined base path).map cut)) :=
        hstart.pushes (cut_joined base path) hp
      generalize normalise ((joined base path).map cut) = cs at hholds ⊢
      have hcs : components (slash :: text) = cs := by
        rw [components_slash, hholds.eq]
        exact components_intercalate hholds.proper
      rw [hcs]
      refine ⟨rfl, by simpa [Nat.add_comm] using hholds.fits, rfl,
        fun c hc => ⟨(hholds.proper c hc).notDot, (hholds.proper c hc).notDotdot⟩,
        congrArg _ hholds.eq, fun base' => ?_⟩
      have hjoined : joined base' (slash :: text) = cs := by
        rw [joined, hcs]
        rfl
      have hcut : cs.map cut = cs :=
        (map_congr_left fun c hc => cut_of_short (hholds.proper c hc).short).trans cs.map_id'
      rw [vfsPathCanonicalise_eq, hjoined, hcut, hholds.again]
      rfl

theorem canonical_path_relative :
    ∃ out, vfsPathCanonicalise (some [slash, 0x61])
        [dot, dot, slash, 0x62, slash, dot, slash, 0x63, slash, slash] = .ok out ∧
      components out = [[0x62], [0x63]] ∧
      ∀ base', vfsPathCanonicalise base' out = .ok out := by
  have h : vfsPathCanonicalise (some [slash, 0x61])
      [dot, dot, slash, 0x62, slash, dot, slash, 0x63, slash, slash] =
        .ok [slash, 0x62, slash, 0x63] := by decide +kernel
  exact ⟨_, h, by decide +kernel, (canonical_path h).2.2.2.2.2⟩

/-- A component of 256 bytes loses its last one. -/
theorem long_component_cut :
    ∃ out, vfsPathCanonicalise none (slash :: List.replicate 256 0x61) = .ok out ∧
      components out ≠ normalise (joined none (slash :: List.replicate 256 0x61)) :=
  ⟨slash :: List.replicate 255 0x61, by decide +kernel, by decide +kernel⟩

/-- A relative name in a directory reached by `path`: the two steps and the path in one have the
same canonical form, or fail alike. -/
theorem canonical_in_steps {base : Option (List UInt8)} {path dir rel : List UInt8}
    (hpath : path ≠ []) (h : vfsPathCanonicalise base path = .ok dir)
    (hrel : rel.head? ≠ some slash) :
    vfsPathCanonicalise (some dir) rel = vfsPathCanonicalise base (path ++ slash :: rel) := by
  rw [vfsPathCanonicalise_eq] at h
  cases hp : ((joined base path).map cut).foldlM canonPush [] with
  | error e =>
      rw [hp] at h
      cases h
  | ok text =>
      rw [hp] at h
      cases h
      have hholds : Holds text (normalise ((joined base path).map cut)) :=
        Holds.pushes ⟨rfl, fun c hc => absurd hc not_mem_nil, by decide⟩ (cut_joined base path) hp
      have hdir : (components (slash :: text)).map cut =
          normalise ((joined base path).map cut) := by
        rw [components_slash, hholds.eq, components_intercalate hholds.proper]
        exact (map_congr_left fun c hc => cut_of_short (hholds.proper c hc).short).trans (map_id' _)
      have hjoined : joined base (path ++ slash :: rel) = joined base path ++ components rel := by
        unfold joined seed
        rw [head?_append_of_ne_nil _ hpath, components_append, append_assoc]
      rw [vfsPathCanonicalise_eq, vfsPathCanonicalise_eq, hjoined, joined, seed, if_neg hrel,
        Option.getD_some, map_append, map_append, hdir, foldlM_append, foldlM_append,
        hholds.again, hp]

theorem canonical_in_steps_up :
    vfsPathCanonicalise (some [slash, 0x61]) [dot, dot, slash, 0x62] =
      vfsPathCanonicalise none ([slash, 0x61, slash] ++ slash :: [dot, dot, slash, 0x62]) :=
  canonical_in_steps (by simp) (by decide +kernel) (by decide)

end NeoKernel.Vfs
