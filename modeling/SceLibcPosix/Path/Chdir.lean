import Mathlib.Logic.Relation
import SceLibcPosix.VitaError
import SceLibcPosix.Path.Lexical

namespace SceLibcPosix.Path

open Errno VitaError Components Relation

/-- What the system answers during one call: whether `calloc` succeeds, and for each path the result
of `sceFiosStatSync` and whether it names a directory. -/
structure Answers where
  alloc : Bool
  stat : List Char → ℤ × Bool

def isDir (k : Answers) (path : List Char) : ℤ :=
  if (k.stat path).1 < 0 then (k.stat path).1
  else if !(k.stat path).2 then makeSceErrno ENOTDIR
  else 0

inductive Changed
  | undefined
  | failed (errno : ℤ) (cwd : List Char)
  | changed (cwd : List Char)
deriving DecidableEq, Repr

def chdir (k : Answers) (cwd : List Char) : Option (List Char) → Changed
  | none => .failed EFAULT cwd
  | some path =>
    match realpath k.alloc cwd (some path) with
    | (.undefined, _) => .undefined
    | (.null errno, cwd) => .failed errno cwd
    | (.ok fullpath, cwd) =>
      let ret := isDir k fullpath
      if ret < 0 then .failed (scefios2ErrnoToErrno ret) cwd else .changed fullpath

def Changed.cwd? : Changed → Option (List Char)
  | .undefined => none
  | .failed _ cwd | .changed cwd => some cwd

/-- What follows a drive is empty or starts with a slash. -/
def Suitable (path : List Char) : Prop :=
  getDrive path ≠ 0 → Absolute (path.drop (getDrive path))

/-- What follows the drive, and the slash there, fits the buffer it is copied to. -/
def LeftFits (full : List Char) : Prop :=
  (afterRoot (full.drop (getDrive full))).length < PATH_MAX

instance (full : List Char) : Decidable (LeftFits full) :=
  inferInstanceAs (Decidable (_ < _))

/-- The relative paths that fill the buffer for the full path up to its last byte, so that the byte
for the end of the string is behind it. -/
def Overruns (k : Answers) (cwd : List Char) (path : Option (List Char)) : Prop :=
  k.alloc = true ∧ ∃ p, path = some p ∧ p ≠ [] ∧ getDrive p = 0 ∧ p.head? ≠ some '/' ∧
    (initCwd cwd).length + 1 + p.length = PATH_MAX

/-- The longer path is not too long to be copied, or all that is left of it, the root, is right. -/
def Agrees (cwd a b : List Char) : Prop :=
  LeftFits (fullPath cwd a ++ '/' :: b) ∨
    normalise (fullPath cwd a ++ '/' :: b) =
      (fullPath cwd a).take (getDrive (fullPath cwd a)) ++ ['/']

/-- A directory with a drive that `__realpath` leaves alone. -/
structure Fixed (cwd : List Char) : Prop where
  drive : getDrive cwd ≠ 0
  fixed : ∀ cwd', (realpath true cwd' (some cwd)).1 = .ok cwd

/-- What a call promises of the current directory. -/
structure Lawful (cwd : List Char) (out : Changed) : Prop where
  defined : out ≠ .undefined
  failed : ∀ errno cwd', out = .failed errno cwd' → initCwd cwd' = initCwd cwd
  fixed : ∀ cwd', out.cwd? = some cwd' → Fixed (initCwd cwd')

/-- A call that stays inside its buffer. -/
inductive ChdirStep (cwd : List Char) : List Char → Prop
  | call (k : Answers) (path : Option (List Char)) (cwd' : List Char)
    (hpath : ∀ p ∈ path, Suitable p) (hroom : ¬ Overruns k cwd path)
    (h : (chdir k cwd path).cwd? = some cwd') : ChdirStep cwd cwd'

/-- The current directories that `chdir` makes are normal forms that fit. -/
def Tidy (cwd : List Char) : Prop :=
  cwd = [] ∨ getDrive cwd ≠ 0 ∧ normalise cwd = cwd ∧ cwd.length < PATH_MAX

section

variable {cwd path full src s a b : List Char} {d : ℕ} {k : Answers}

theorem Tidy.isCwd (h : Tidy cwd) : IsCwd cwd := by
  rcases h with h | ⟨hd, hnorm, -⟩
  · exact .inl h
  · obtain ⟨-, -, hdrop⟩ := normalise_split hd
    rw [hnorm] at hdrop
    exact .inr ⟨hd, hdrop ▸ lexical_absolute _⟩

theorem Tidy.init (h : Tidy cwd) : Tidy (initCwd cwd) := by
  unfold initCwd
  split
  · exact .inr (by decide)
  · exact h

theorem Tidy.fixed (h : Tidy cwd) : Fixed (initCwd cwd) := by
  have hne : initCwd cwd ≠ [] := by
    unfold initCwd
    split
    · decide
    · next hne => exact hne
  obtain ⟨hd, hnorm, hlen⟩ := h.init.resolve_left hne
  exact ⟨hd, realpath_fixed hd hnorm hlen⟩

theorem joinDrive_length {res : Resolved} (h : joinDrive src d res = .ok s) :
    s.length < PATH_MAX := by
  have hbuf : ∀ buf : List Char, (if buf.length + d < PATH_MAX then Outcome.ok (src.take d ++ buf)
      else .null ENAMETOOLONG) = .ok s → s.length < PATH_MAX := by
    intro buf h
    split at h
    · rw [← Outcome.ok.inj h, List.length_append, List.length_take]
      omega
    · cases h
  cases res with
  | undefined => cases h
  | null errno buf => exact hbuf buf h
  | path buf => exact hbuf buf h

theorem resolvePath_long {tail : List Char} (h : PATH_MAX ≤ tail.length) :
    resolvePath ('/' :: tail) = .null ENAMETOOLONG ['/'] := by
  cases tail with
  | nil => exact absurd h (by decide)
  | cons x tail =>
    rw [resolvePath, if_pos h]
    simp

theorem joinDrive_ok (hd : getDrive full ≠ 0) (hsrc : src.take d = full.take d)
    (hdd : d = getDrive full) (habs : Absolute (full.drop d))
    (h : joinDrive src d (resolvePath (full.drop d)) = .ok s) :
    s = if LeftFits full then normalise full else full.take d ++ ['/'] := by
  have hnorm : normalise full = full.take d ++ lexical (full.drop d) := by rw [normalise, hdd]
  have hleft : LeftFits full ↔ (afterRoot (full.drop d)).length < PATH_MAX := by rw [LeftFits, hdd]
  rw [hnorm]
  cases hrest : full.drop d with
  | nil =>
    rw [hrest] at h hleft
    rw [resolvePath_nil, joinDrive, hsrc] at h
    rw [if_pos (hleft.mpr (by decide))]
    split at h
    · exact (Outcome.ok.inj h).symm
    · cases h
  | cons x tail =>
    rw [hrest] at h habs hleft
    obtain rfl : x = '/' := Option.some.inj (habs.resolve_left (by simp))
    have hafter : afterRoot ('/' :: tail) = tail := rfl
    rw [hafter] at hleft
    by_cases hlt : tail.length < PATH_MAX
    · have hout := resolvePath_slash hlt
      generalize resolvePath ('/' :: tail) = res at h hout
      cases hout with
      | null buf hbuf =>
        rw [joinDrive, if_neg (by omega)] at h
        cases h
      | path =>
        rw [joinDrive, hsrc] at h
        split at h
        · rw [if_pos (hleft.mpr hlt), lexical, if_neg (by simp)]
          exact (Outcome.ok.inj h).symm
        · cases h
    · rw [resolvePath_long (Nat.le_of_not_lt hlt), joinDrive, hsrc] at h
      rw [if_neg (mt hleft.mp hlt)]
      split at h
      · exact (Outcome.ok.inj h).symm
      · cases h

theorem realpath_ok {alloc : Bool} (hcwd : IsCwd cwd)
    (habs : getDrive path ≠ 0 → Absolute (path.drop (getDrive path)))
    (h : (realpath alloc cwd (some path)).1 = .ok s) :
    s.length < PATH_MAX ∧
      (getDrive path = 0 → path.head? ≠ some '/' → (fullPath cwd path).length < PATH_MAX) ∧
      s = if LeftFits (fullPath cwd path) then normalise (fullPath cwd path)
        else (fullPath cwd path).take (getDrive (fullPath cwd path)) ++ ['/'] := by
  have hne : path ≠ [] := by
    rintro rfl
    cases h
  have halloc : alloc = true := by
    cases alloc with
    | true => rfl
    | false =>
      rw [realpath, if_neg (by simpa using hne)] at h
      cases h
  subst halloc
  have hroom : getDrive path = 0 → path.head? ≠ some '/' →
      (fullPath cwd path).length < PATH_MAX := by
    intro hp hhead
    rw [fullPath, if_neg (not_not.mpr hp), if_neg hhead, List.length_append, List.length_cons]
    by_contra hlong
    rw [realpath, if_neg (by simpa using hne), if_neg (by decide)] at h
    dsimp only at h
    rw [if_neg (not_not.mpr hp), if_neg hhead] at h
    split at h
    · rw [if_pos (by omega)] at h
      cases h
    · cases h
  obtain ⟨src, d, hsrc, rfl, hout⟩ := realpath_join hcwd hne hroom
  rw [hout] at h
  refine ⟨joinDrive_length h, hroom, ?_⟩
  exact joinDrive_ok (fullPath_drive hcwd path) hsrc rfl (fullPath_absolute hcwd habs) h

theorem initCwd_initCwd (cwd : List Char) : initCwd (initCwd cwd) = initCwd cwd := by
  by_cases h : cwd = []
  · rw [h]
    rfl
  · have hself : initCwd cwd = cwd := if_neg h
    rw [hself, hself]

theorem realpath_cwd (alloc : Bool) (cwd : List Char) (path : Option (List Char)) :
    (realpath alloc cwd path).2 = cwd ∨ (realpath alloc cwd path).2 = initCwd cwd := by
  cases path with
  | none => exact .inl rfl
  | some path =>
    unfold realpath
    dsimp only
    split_ifs
    · exact .inl rfl
    · exact .inl rfl
    · exact .inl rfl
    · exact .inr rfl
    · exact .inr rfl
    · exact .inr rfl
    · exact .inr rfl

theorem joinDrive_defined {rest : List Char} (habs : Absolute rest) :
    joinDrive src d (resolvePath rest) ≠ .undefined := by
  have hbuf : ∀ buf : List Char, (if buf.length + d < PATH_MAX then Outcome.ok (src.take d ++ buf)
      else .null ENAMETOOLONG) ≠ .undefined := by
    intro buf
    split <;> simp
  cases hres : resolvePath rest with
  | path buf => exact hbuf buf
  | null errno buf => exact hbuf buf
  | undefined =>
    exfalso
    rcases habs with rfl | hroot
    · rw [resolvePath_nil] at hres
      cases hres
    · cases rest with
      | nil => cases hroot
      | cons x tail =>
        obtain rfl : x = '/' := Option.some.inj hroot
        by_cases hlt : tail.length < PATH_MAX
        · have hout := resolvePath_slash hlt
          rw [hres] at hout
          cases hout
        · rw [resolvePath_long (Nat.le_of_not_lt hlt)] at hres
          cases hres

/-- A relative path overruns the buffer where it ends together with it. -/
theorem realpath_relative_undefined_iff (hcwd : IsCwd cwd) (hpath : Suitable path)
    (hne : path ≠ []) (hdrive : getDrive path = 0) (hhead : path.head? ≠ some '/') :
    (realpath true cwd (some path)).1 = .undefined ↔
      (initCwd cwd).length + 1 + path.length = PATH_MAX := by
  by_cases hlt : (initCwd cwd).length + 1 + path.length < PATH_MAX
  · have hroom : getDrive path = 0 → path.head? ≠ some '/' →
        (fullPath cwd path).length < PATH_MAX := by
      intro _ _
      rw [fullPath, if_neg (not_not.mpr hdrive), if_neg hhead, List.length_append,
        List.length_cons]
      omega
    obtain ⟨src, d, -, rfl, hout⟩ := realpath_join hcwd hne hroom
    rw [hout]
    exact iff_of_false (joinDrive_defined (fullPath_absolute hcwd hpath)) (by omega)
  · rw [realpath, if_neg (by simpa using hne), if_neg (by decide)]
    dsimp only
    rw [if_neg (not_not.mpr hdrive), if_neg hhead]
    by_cases hle : (initCwd cwd).length + path.length < PATH_MAX
    · rw [if_pos hle, if_pos (by omega)]
      exact iff_of_true rfl (by omega)
    · rw [if_neg hle]
      exact iff_of_false (fun h ↦ by cases h) (by omega)

theorem realpath_undefined_iff (k : Answers) (hcwd : IsCwd cwd) (hpath : Suitable path) :
    (realpath k.alloc cwd (some path)).1 = .undefined ↔ Overruns k cwd (some path) := by
  by_cases hne : path = []
  · refine iff_of_false (fun h ↦ ?_) ?_
    · rw [hne] at h
      cases h
    · rintro ⟨-, p, hp, hpne, -⟩
      exact hpne (Option.some.inj hp ▸ hne)
  cases halloc : k.alloc with
  | false =>
    refine iff_of_false (fun h ↦ ?_) fun h ↦ ?_
    · rw [realpath, if_neg (by simpa using hne)] at h
      cases h
    · cases halloc.symm.trans h.1
  | true =>
    by_cases hrel : getDrive path = 0 ∧ path.head? ≠ some '/'
    · obtain ⟨hdrive, hhead⟩ := hrel
      rw [realpath_relative_undefined_iff hcwd hpath hne hdrive hhead]
      constructor
      · exact fun h ↦ ⟨halloc, path, rfl, hne, hdrive, hhead, h⟩
      · rintro ⟨-, p, hp, -, -, -, h⟩
        rwa [← Option.some.inj hp] at h
    · obtain ⟨src, d, -, rfl, hout⟩ :=
        realpath_join hcwd hne fun hp hhead ↦ absurd ⟨hp, hhead⟩ hrel
      rw [hout]
      refine iff_of_false (joinDrive_defined (fullPath_absolute hcwd hpath)) ?_
      rintro ⟨-, p, hp, -, hd, hhead, -⟩
      obtain rfl := Option.some.inj hp
      exact hrel ⟨hd, hhead⟩

theorem realpath_tidy {alloc : Bool} (hcwd : IsCwd cwd) (hpath : Suitable path)
    (h : (realpath alloc cwd (some path)).1 = .ok s) : Tidy s := by
  have hd := fullPath_drive hcwd path
  obtain ⟨hlen, -, hs⟩ := realpath_ok hcwd hpath h
  right
  split at hs
  · obtain ⟨hdrive, -⟩ := normalise_split hd
    rw [hs] at hlen ⊢
    exact ⟨hdrive ▸ hd, normalise_normalise hd, hlen⟩
  · obtain ⟨hdrive, htake⟩ := getDrive_take_append hd ['/']
    rw [hs] at hlen ⊢
    refine ⟨by rw [hdrive]; exact hd, ?_, hlen⟩
    rw [normalise, hdrive, List.take_left' htake, List.drop_left' htake]
    rfl

inductive ChdirOutcome (k : Answers) (cwd : List Char) (path : Option (List Char)) : Changed → Prop
  | undefined (h : Overruns k cwd path) : ChdirOutcome k cwd path .undefined
  | failed (errno : ℤ) (cwd' : List Char) (h : ¬ Overruns k cwd path)
    (hcwd : cwd' = cwd ∨ cwd' = initCwd cwd) : ChdirOutcome k cwd path (.failed errno cwd')
  | changed (p s : List Char) (hp : path = some p) (h : ¬ Overruns k cwd path)
    (hs : (realpath k.alloc cwd (some p)).1 = .ok s) : ChdirOutcome k cwd path (.changed s)

theorem chdir_outcome (k : Answers) (hcwd : IsCwd cwd) {path : Option (List Char)}
    (hpath : ∀ p ∈ path, Suitable p) : ChdirOutcome k cwd path (chdir k cwd path) := by
  cases path with
  | none =>
    refine .failed _ _ ?_ (.inl rfl)
    rintro ⟨-, p, hp, -⟩
    cases hp
  | some p =>
    have hover := realpath_undefined_iff k hcwd (hpath p rfl)
    have hsnd := realpath_cwd k.alloc cwd (some p)
    unfold chdir
    dsimp only
    rcases hres : realpath k.alloc cwd (some p) with ⟨out, cwd'⟩
    rw [hres] at hover hsnd
    cases out with
    | undefined => exact .undefined (hover.mp rfl)
    | null errno => exact .failed _ _ (fun h ↦ by cases hover.mpr h) hsnd
    | ok s =>
      have hno : ¬ Overruns k cwd (some p) := fun h ↦ by cases hover.mpr h
      dsimp only
      split
      · exact .failed _ _ hno hsnd
      · exact .changed p s rfl hno (by rw [hres])

theorem ChdirOutcome.tidy {out : Changed} {path : Option (List Char)} {cwd' : List Char}
    (h : ChdirOutcome k cwd path out) (hcwd : Tidy cwd) (hpath : ∀ p ∈ path, Suitable p)
    (hout : out.cwd? = some cwd') : Tidy cwd' := by
  cases h with
  | undefined => cases hout
  | failed errno c hno hc =>
    obtain rfl := Option.some.inj hout
    rcases hc with rfl | rfl
    · exact hcwd
    · exact hcwd.init
  | changed p s hp hno hs =>
    obtain rfl := Option.some.inj hout
    exact realpath_tidy hcwd.isCwd (hpath p hp) hs

theorem chdir_lawful_iff (hcwd : Tidy cwd) {path : Option (List Char)}
    (hpath : ∀ p ∈ path, Suitable p) (k : Answers) :
    Lawful cwd (chdir k cwd path) ↔ ¬ Overruns k cwd path := by
  have hout := chdir_outcome k hcwd.isCwd hpath
  have htidy : ∀ cwd', (chdir k cwd path).cwd? = some cwd' → Fixed (initCwd cwd') :=
    fun cwd' h ↦ (hout.tidy hcwd hpath h).fixed
  generalize chdir k cwd path = out at hout htidy
  cases hout with
  | undefined h => exact iff_of_false (fun hl ↦ hl.defined rfl) (not_not.mpr h)
  | failed errno cwd' h hc =>
    refine iff_of_true ⟨by simp, fun e c heq ↦ ?_, htidy⟩ h
    cases heq
    rcases hc with rfl | rfl
    · rfl
    · exact initCwd_initCwd cwd
  | changed p s hp h hs => exact iff_of_true ⟨by simp, by simp, htidy⟩ h

theorem reachable_tidy (h : ReflTransGen ChdirStep [] cwd) : Tidy cwd := by
  induction h with
  | refl => exact .inl rfl
  | tail _ hs ih =>
    cases hs with
    | call k path cwd' hpath hroom hout =>
      exact (chdir_outcome k ih.isCwd hpath).tidy ih hpath hout

theorem getDrive_below (a b : List Char) : getDrive (a ++ '/' :: b) = getDrive a := by
  have hslash : ('/' :: b).takeWhile driveChar = [] := List.takeWhile_cons_of_neg (by decide)
  have htake : (a ++ '/' :: b).takeWhile driveChar = a.takeWhile driveChar := by
    rw [List.takeWhile_append, hslash, List.append_nil]
    split
    · next h => exact ((List.takeWhile_sublist _).eq_of_length h).symm
    · rfl
  have hle : (a.takeWhile driveChar).length ≤ a.length := (List.takeWhile_sublist _).length_le
  have hcolon : (a ++ '/' :: b)[(a.takeWhile driveChar).length]? = some ':' ↔
      a[(a.takeWhile driveChar).length]? = some ':' := by
    by_cases hlt : (a.takeWhile driveChar).length < a.length
    · rw [List.getElem?_append_left hlt]
    · have heq : (a.takeWhile driveChar).length = a.length := by omega
      simp [heq]
  unfold getDrive
  dsimp only
  rw [htake]
  simp only [hcolon]

theorem fullPath_append (ha : a ≠ []) :
    fullPath cwd (a ++ '/' :: b) = fullPath cwd a ++ '/' :: b := by
  have hhead : (a ++ '/' :: b).head? = a.head? := List.head?_append_of_ne_nil _ ha
  unfold fullPath
  dsimp only
  rw [getDrive_below, hhead]
  split
  · rfl
  · split
    · rw [List.append_assoc]
    · rw [List.append_assoc, List.cons_append]

theorem leftFits_of_length (hcwd : IsCwd cwd) (hlen : path.length < PATH_MAX)
    (hroom : getDrive path = 0 → path.head? ≠ some '/' → (fullPath cwd path).length < PATH_MAX) :
    LeftFits (fullPath cwd path) := by
  apply Nat.lt_of_le_of_lt (afterRoot_length _)
  by_cases hp : getDrive path ≠ 0
  · have hfull : fullPath cwd path = path := if_pos hp
    rw [hfull, List.length_drop]
    omega
  by_cases hhead : path.head? = some '/'
  · have hfull : fullPath cwd path = (initCwd cwd).take (getDrive (initCwd cwd)) ++ path := by
      rw [fullPath, if_neg hp, if_pos hhead]
    obtain ⟨hsame, htake⟩ := getDrive_take_append hcwd.init.1 path
    rw [hfull, hsame, List.drop_left' htake]
    exact hlen
  · have := hroom (not_not.mp hp) hhead
    rw [List.length_drop]
    omega

theorem chdir_changed {c : List Char} (hcwd : IsCwd cwd) (hpath : Suitable a)
    (hlen : a.length < PATH_MAX) (h : chdir k cwd (some a) = .changed c) :
    a ≠ [] ∧ c = normalise (fullPath cwd a) := by
  have hsuit : ∀ p ∈ some a, Suitable p := fun p hp ↦ Option.some.inj hp ▸ hpath
  have hout := chdir_outcome k hcwd hsuit
  rw [h] at hout
  cases hout with
  | changed p _ hp hno hs =>
    obtain rfl := Option.some.inj hp
    obtain ⟨-, hroom, hc⟩ := realpath_ok hcwd hpath hs
    rw [if_pos (leftFits_of_length hcwd hlen hroom)] at hc
    refine ⟨?_, hc⟩
    rintro rfl
    cases hs

theorem resolve_below {c t : List Char} (hcwd : IsCwd cwd) (ha : Suitable a)
    (hlen : a.length < PATH_MAX) (hb : getDrive b = 0) (hroot : b.head? ≠ some '/')
    (hc : chdir k cwd (some a) = .changed c) (hs : (realpath true c (some b)).1 = .ok s)
    (ht : (realpath true cwd (some (a ++ '/' :: b))).1 = .ok t) :
    s = t ↔ Agrees cwd a b := by
  obtain ⟨hne, rfl⟩ := chdir_changed hcwd ha hlen hc
  have hd := fullPath_drive hcwd a
  obtain ⟨hdrive, -, hdrop⟩ := normalise_split hd
  have hcwd' : IsCwd (normalise (fullPath cwd a)) := by
    refine .inr ⟨hdrive ▸ hd, ?_⟩
    rw [hdrive, hdrop]
    exact lexical_absolute _
  have hbelow : fullPath (normalise (fullPath cwd a)) b =
      normalise (fullPath cwd a) ++ '/' :: b := by
    have hself : initCwd (normalise (fullPath cwd a)) = normalise (fullPath cwd a) := by
      refine if_neg fun h ↦ ?_
      rw [h] at hdrive
      exact hd hdrive.symm
    rw [fullPath, if_neg (not_not.mpr hb), if_neg hroot, hself]
  have hsuit : Suitable b := fun h ↦ absurd hb h
  have hsuit' : Suitable (a ++ '/' :: b) := by
    intro hp
    rw [getDrive_below] at hp ⊢
    rw [(getDrive_append hp ('/' :: b)).2.2]
    rcases ha hp with hnil | hslash
    · rw [hnil]
      exact .inr rfl
    · right
      rw [List.head?_append, hslash]
      rfl
  obtain ⟨-, hroom, hs'⟩ := realpath_ok hcwd' hsuit hs
  have hleft : LeftFits (fullPath (normalise (fullPath cwd a)) b) := by
    have hlt := hroom hb hroot
    apply Nat.lt_of_le_of_lt (afterRoot_length _)
    rw [List.length_drop]
    omega
  rw [if_pos hleft, hbelow, normalise_append hd] at hs'
  obtain ⟨-, -, ht'⟩ := realpath_ok hcwd hsuit' ht
  obtain ⟨hdrive₂, htake₂, -⟩ := getDrive_append hd ('/' :: b)
  rw [fullPath_append hne, hdrive₂, htake₂] at ht'
  rw [hs', ht']
  by_cases hfits : LeftFits (fullPath cwd a ++ '/' :: b)
  · rw [if_pos hfits]
    exact iff_of_true rfl (.inl hfits)
  · rw [if_neg hfits, Agrees, or_iff_right hfits]

theorem chdir_realpath (h : chdir k cwd (some path) = .changed s) :
    (realpath true cwd (some path)).1 = .ok s := by
  have halloc : k.alloc = true := by
    by_contra hno
    rw [chdir, realpath, Bool.eq_false_iff.mpr hno] at h
    by_cases hne : path.length = 0
    · rw [if_pos hne] at h
      cases h
    · rw [if_neg hne] at h
      cases h
  rw [chdir, halloc] at h
  rcases hres : realpath true cwd (some path) with ⟨out, cwd'⟩
  rw [hres] at h
  cases out with
  | undefined => cases h
  | null errno => cases h
  | ok s' =>
    dsimp only at h
    split at h
    · cases h
    · rw [Changed.changed.inj h]

/-- In every run that stays inside the buffers, the current directory is a fixed point with a drive
and a call that fails leaves it alone; going to a directory and below is going there at once. -/
theorem chdir_laws (h : ReflTransGen ChdirStep [] cwd) :
    Fixed (initCwd cwd) ∧
    (∀ (k : Answers) (path : Option (List Char)), (∀ p ∈ path, Suitable p) →
      (Lawful cwd (chdir k cwd path) ↔ ¬ Overruns k cwd path)) ∧
    ∀ (k : Answers) (a b c : List Char), Suitable a → a.length < PATH_MAX → getDrive b = 0 →
      b.head? ≠ some '/' → chdir k cwd (some a) = .changed c →
      (∀ s t, (realpath true c (some b)).1 = .ok s →
        (realpath true cwd (some (a ++ '/' :: b))).1 = .ok t → (s = t ↔ Agrees cwd a b)) ∧
      ∀ (k' k'' : Answers) (s t : List Char), chdir k' c (some b) = .changed s →
        chdir k'' cwd (some (a ++ '/' :: b)) = .changed t → (s = t ↔ Agrees cwd a b) := by
  have htidy := reachable_tidy h
  refine ⟨htidy.fixed, fun k path hpath ↦ chdir_lawful_iff htidy hpath k, ?_⟩
  intro k a b c ha hlen hb hroot hc
  refine ⟨fun s t ↦ resolve_below htidy.isCwd ha hlen hb hroot hc, fun k' k'' s t hs ht ↦ ?_⟩
  exact resolve_below htidy.isCwd ha hlen hb hroot hc (chdir_realpath hs) (chdir_realpath ht)

end

def allDirs : Answers where
  alloc := true
  stat := fun _ ↦ (0, true)

theorem chdir_allDirs {cwd p s : List Char} (h : (realpath true cwd (some p)).1 = .ok s) :
    chdir allDirs cwd (some p) = .changed s := by
  have halloc : allDirs.alloc = true := rfl
  rw [chdir, halloc]
  rcases hres : realpath true cwd (some p) with ⟨out, cwd'⟩
  rw [hres] at h
  obtain rfl : out = .ok s := h
  rfl

theorem chdir_short {cwd p s : List Char} (hcwd : IsCwd cwd) (hne : p ≠ []) (hp : Suitable p)
    (hlen : (fullPath cwd p).length < PATH_MAX) (hs : normalise (fullPath cwd p) = s) :
    chdir allDirs cwd (some p) = .changed s := by
  have hfits : Fits cwd p :=
    ⟨.of_length (fullPath_drive hcwd p) (fullPath_absolute hcwd hp) hlen, fun _ _ ↦ hlen⟩
  rw [← hs]
  exact chdir_allDirs (realpath_fits hcwd hne hp hfits)

theorem data_reachable : ReflTransGen ChdirStep [] "ux0:/data".toList := by
  have hsuit : Suitable "ux0:/data".toList := fun _ ↦ .inr (by decide)
  refine .single (.call allDirs (some "ux0:/data".toList) _ ?_ ?_ ?_)
  · intro p hp
    obtain rfl := Option.some.inj hp
    exact hsuit
  · rintro ⟨-, p, hp, -, hd, -⟩
    obtain rfl := Option.some.inj hp
    exact absurd hd (by decide)
  · rw [chdir_short (.inl rfl) (by decide) hsuit (by decide) rfl]
    decide

/-- Down and up and down again, in two calls and at once. -/
theorem chdir_laws_data : Fixed "ux0:/data".toList ∧
    chdir allDirs "ux0:/data/x".toList (some "../y".toList) =
      chdir allDirs "ux0:/data".toList (some "x/../y".toList) := by
  have hlaw := chdir_laws data_reachable
  have hdata : IsCwd "ux0:/data".toList := .inr ⟨by decide, .inr (by decide)⟩
  have hx : IsCwd "ux0:/data/x".toList := .inr ⟨by decide, .inr (by decide)⟩
  have hsuit : ∀ p, getDrive p = 0 → Suitable p := fun p h h' ↦ absurd h h'
  have hc : chdir allDirs "ux0:/data".toList (some "x".toList) = .changed "ux0:/data/x".toList :=
    chdir_short hdata (by decide) (hsuit _ (by decide)) (by decide) (by decide)
  have hs : chdir allDirs "ux0:/data/x".toList (some "../y".toList) = .changed _ :=
    chdir_short hx (by decide) (hsuit _ (by decide)) (by decide) rfl
  have ht : chdir allDirs "ux0:/data".toList (some "x/../y".toList) = .changed _ :=
    chdir_short hdata (by decide) (hsuit _ (by decide)) (by decide) rfl
  have hagrees : Agrees "ux0:/data".toList "x".toList "../y".toList := .inl (by decide)
  refine ⟨hlaw.1, ?_⟩
  rw [hs, ht, ((hlaw.2.2 allDirs "x".toList "../y".toList _ (hsuit _ (by decide)) (by decide)
    (by decide) (by decide) hc).2 allDirs allDirs _ _ hs ht).mpr hagrees]

/-- A name of 1018 letters fills the buffer behind `app0:/` and the string ends outside it. -/
theorem chdir_overruns : Suitable (List.replicate 1018 'a') ∧
    (List.replicate 1018 'a').length < PATH_MAX ∧
    ¬ Lawful [] (chdir allDirs [] (some (List.replicate 1018 'a'))) := by
  have hlen : (List.replicate 1018 'a').length = 1018 := List.length_replicate
  have hchars : ∀ x ∈ List.replicate 1018 'a', driveChar x = true := by
    intro x hx
    rw [List.eq_of_mem_replicate hx]
    decide
  have hdrive : getDrive (List.replicate 1018 'a') = 0 := by
    rw [getDrive, List.takeWhile_eq_self_iff.mpr hchars, List.getElem?_eq_none le_rfl]
    rfl
  have hsuit : Suitable (List.replicate 1018 'a') := fun h ↦ absurd hdrive h
  have hover : Overruns allDirs [] (some (List.replicate 1018 'a')) := by
    refine ⟨rfl, _, rfl, ?_, hdrive, ?_, ?_⟩
    · exact List.ne_nil_of_length_pos (by omega)
    · rw [List.head?_replicate]
      decide
    · rw [hlen]
      decide
  refine ⟨hsuit, by rw [hlen]; decide, fun h ↦ ?_⟩
  have hout := (realpath_undefined_iff allDirs (.inl rfl) hsuit).mpr hover
  apply h.defined
  rw [chdir]
  rcases hres : realpath allDirs.alloc [] (some (List.replicate 1018 'a')) with ⟨out, cwd'⟩
  rw [hres] at hout
  obtain rfl : out = .undefined := hout
  rfl

end SceLibcPosix.Path
