import SceLibcPosix.Path.Normal

namespace SceLibcPosix.Path

open Errno Components

/-- What a path names: the path itself, or one on the drive of the current directory, or one below
the current directory. -/
def fullPath (cwd path : List Char) : List Char :=
  let cwd := initCwd cwd
  if getDrive path ≠ 0 then path
  else if path.head? = some '/' then cwd.take (getDrive cwd) ++ path
  else cwd ++ '/' :: path

def afterRoot : List Char → List Char
  | '/' :: tail => tail
  | rest => rest

/-- The input is too long: what follows the root, or a relative path with its directory. -/
def InputTooLong (cwd path : List Char) : Prop :=
  if getDrive path ≠ 0 then PATH_MAX ≤ (afterRoot (path.drop (getDrive path))).length
  else if path.head? = some '/' then PATH_MAX ≤ (afterRoot path).length
  else PATH_MAX ≤ (initCwd cwd).length + path.length

/-- The text of some first components of a full path, or its normal form, is too long. -/
def Overflows (full : List Char) : Prop :=
  (∃ qs, qs <+: (full.drop (getDrive full)).splitOn '/' ∧
    PATH_MAX ≤ (rooted '/' (pathRules.normal [] qs)).length) ∨
  PATH_MAX ≤ (normalise full).length

/-- No path of this length is resolved in the buffers of the layer. -/
def TooLong (cwd path : List Char) : Prop :=
  InputTooLong cwd path ∨ Overflows (fullPath cwd path)

/-- A full path that is too long is refused, and a string is its normal form. -/
structure RefusesLong (full : List Char) (tooLong : Prop) (out : Outcome) : Prop where
  refused : tooLong → out = .null ENAMETOOLONG
  exact : ∀ s, out = .ok s → s = normalise full
  defined : out ≠ .undefined

/-- What follows a drive is empty or starts with a slash. -/
def Absolute (rest : List Char) : Prop := rest = [] ∨ rest.head? = some '/'

/-- The current directories that `chdir` makes, and the empty one that the program starts with. -/
def IsCwd (cwd : List Char) : Prop :=
  cwd = [] ∨ getDrive cwd ≠ 0 ∧ Absolute (cwd.drop (getDrive cwd))

/-- The texts that are resolved or refused as they should be after a drive of `d` characters. -/
def HandledAfter (d : ℕ) : List Char → Prop
  | [] => True
  | '/' :: tail => tail.length < PATH_MAX ∨ PATH_MAX ≤ d + 1
  | rest => PATH_MAX ≤ rest.length ∧ PATH_MAX ≤ d

/-- The paths that are resolved or refused as they should be. -/
def Handled (cwd path : List Char) : Prop :=
  if getDrive path ≠ 0 then HandledAfter (getDrive path) (path.drop (getDrive path))
  else if path.head? = some '/' then
    HandledAfter (getDrive (initCwd cwd)) path
  else (initCwd cwd).length + 1 + path.length ≠ PATH_MAX

section

variable {l m a cwd path full src rest tail : List Char} {d : ℕ} {input tooLong : Prop}

theorem getDrive_of (h : ∀ x ∈ a, driveChar x = true) :
    getDrive (a ++ ':' :: m) = a.length + 1 := by
  have htake : (a ++ ':' :: m).takeWhile driveChar = a := by
    rw [List.takeWhile_append_of_pos h, List.takeWhile_cons_of_neg (by decide), List.append_nil]
  simp [getDrive, htake]

theorem getDrive_split (h : getDrive l ≠ 0) : ∃ a m, l = a ++ ':' :: m ∧
    (∀ x ∈ a, driveChar x = true) ∧ getDrive l = a.length + 1 := by
  have hall : ∀ x ∈ l.takeWhile driveChar, driveChar x = true := fun x ↦ List.mem_takeWhile_imp
  have heq : l.takeWhile driveChar ++ l.dropWhile driveChar = l := List.takeWhile_append_dropWhile
  unfold getDrive at h
  extract_lets i at h
  by_cases hcolon : l[i]? = some ':'
  · obtain ⟨m, hm⟩ : ∃ m, l.dropWhile driveChar = ':' :: m := by
      have hhead : (l.dropWhile driveChar)[0]? = some ':' := by
        rw [← hcolon, ← heq, List.getElem?_append_right le_rfl]
        simp
      cases hdrop : l.dropWhile driveChar with
      | nil => simp [hdrop] at hhead
      | cons x m =>
        rw [hdrop] at hhead
        exact ⟨m, by simpa using hhead⟩
    rw [hm] at heq
    exact ⟨_, m, heq.symm, hall, by rw [← heq, getDrive_of hall, heq]⟩
  · rw [if_neg hcolon] at h
    exact absurd rfl h

theorem getDrive_take_append (h : getDrive l ≠ 0) (m : List Char) :
    getDrive (l.take (getDrive l) ++ m) = getDrive l ∧
      (l.take (getDrive l)).length = getDrive l := by
  obtain ⟨a, m', rfl, ha, hd⟩ := getDrive_split h
  have htake : (a ++ ':' :: m').take (a.length + 1) = a ++ [':'] := by
    rw [List.take_length_add_append]
    rfl
  rw [hd, htake, List.append_assoc]
  exact ⟨getDrive_of ha, by simp⟩

theorem RefusesLong.null : RefusesLong full tooLong (.null ENAMETOOLONG) where
  refused _ := rfl
  exact _ h := by cases h
  defined h := by cases h

theorem RefusesLong.refusedBefore {errno : ℤ} (h : ¬ tooLong) :
    RefusesLong full tooLong (.null errno) where
  refused hl := absurd hl h
  exact _ h := by cases h
  defined h := by cases h

theorem normal_nil (cs qs : List (List Char)) :
    pathRules.normal cs ([] :: qs) = pathRules.normal cs qs := rfl

theorem splitOn_slash : ('/' :: tail).splitOn '/' = [] :: tail.splitOn '/' :=
  List.splitOn_append_cons_self [] tail

theorem resolvePath_slash (h : tail.length < PATH_MAX) :
    LoopOutcome [] (('/' :: tail).splitOn '/') (resolvePath ('/' :: tail)) := by
  have hroot : (rooted '/' ([] : List (List Char))).length < PATH_MAX := by decide
  have hone : (['/'] : List Char).length < PATH_MAX := by decide
  rw [splitOn_slash]
  refine LoopOutcome.cons ?_ hroot
  change LoopOutcome [] (tail.splitOn '/') _
  have hpend : Pending '/' ([] : List (List Char)) ['/'] := .slashed
  have hout : LoopOutcome [] (pending tail tail.length) (resolveLoop tail tail.length ['/']) :=
    resolveLoop_outcome (by simp) hpend hone le_rfl h
  cases tail with
  | nil =>
    rw [resolveLoop] at hout
    exact LoopOutcome.cons hout hroot
  | cons x tail =>
    rw [resolvePath, if_neg (Nat.not_le_of_lt h)]
    · exact hout
    · simp

theorem joinDrive_refuses (hd : getDrive full ≠ 0) (hsrc : src.take d = full.take (getDrive full))
    (hdd : d = getDrive full) (hrest : full.drop (getDrive full) ≠ []) {res : Resolved}
    (h : LoopOutcome [] ((full.drop (getDrive full)).splitOn '/') res)
    (hlong : tooLong → Overflows full) : RefusesLong full tooLong (joinDrive src d res) := by
  have hlen := (getDrive_take_append hd []).2
  cases h with
  | null buf hbuf =>
    rw [joinDrive, if_neg (by omega)]
    exact .null
  | path h =>
    have hlex : lexical (full.drop (getDrive full)) =
        rooted '/' (pathRules.normal [] ((full.drop (getDrive full)).splitOn '/')) := if_neg hrest
    rw [joinDrive, ← hlex]
    by_cases hfits : (lexical (full.drop (getDrive full))).length + d < PATH_MAX
    · rw [if_pos hfits, hsrc]
      refine ⟨fun hl ↦ ?_, fun s hs ↦ (Outcome.ok.inj hs).symm, by simp⟩
      rcases hlong hl with ⟨qs, hqs, hover⟩ | hover
      · exact absurd (h qs hqs) (Nat.not_lt_of_le hover)
      · rw [normalise, List.length_append, hlen] at hover
        omega
    · rw [if_neg hfits]
      exact .null

theorem joinDrive_slash (hd : getDrive full ≠ 0) (hsrc : src.take d = full.take (getDrive full))
    (hdd : d = getDrive full) (hrest : full.drop (getDrive full) = '/' :: tail)
    (hlong : tooLong ↔ PATH_MAX ≤ tail.length ∨ Overflows full) :
    RefusesLong full tooLong (joinDrive src d (resolvePath ('/' :: tail))) ↔
      tail.length < PATH_MAX ∨ PATH_MAX ≤ d + 1 := by
  by_cases hlt : tail.length < PATH_MAX
  · refine iff_of_true (joinDrive_refuses hd hsrc hdd (by simp [hrest]) ?_ fun h ↦ ?_) (.inl hlt)
    · rw [hrest]
      exact resolvePath_slash hlt
    · exact (hlong.mp h).resolve_left (by omega)
  · have hle : PATH_MAX ≤ tail.length := Nat.le_of_not_lt hlt
    have hres : resolvePath ('/' :: tail) = .null ENAMETOOLONG ['/'] := by
      cases tail with
      | nil => exact absurd hle (by decide)
      | cons x tail =>
        rw [resolvePath, if_pos hle]
        simp
    rw [hres, joinDrive, or_iff_right hlt]
    by_cases hroom : ['/'].length + d < PATH_MAX
    · rw [if_pos hroom]
      simp only [List.length_singleton] at hroom
      refine iff_of_false (fun h ↦ ?_) (by omega)
      cases h.refused (hlong.mpr (.inl hle))
    · rw [if_neg hroom]
      simp only [List.length_singleton] at hroom
      exact iff_of_true .null (by omega)

theorem IsCwd.init (h : IsCwd cwd) :
    getDrive (initCwd cwd) ≠ 0 ∧ Absolute ((initCwd cwd).drop (getDrive (initCwd cwd))) := by
  by_cases hnil : cwd = []
  · rw [initCwd, if_pos hnil]
    exact ⟨by decide, .inl (by decide)⟩
  · rw [initCwd, if_neg hnil]
    exact h.resolve_left hnil

/-- A relative text is appended to a buffer without a last character. -/
theorem resolveLoop_empty (hpos : 0 < l.length) (hlt : l.length < PATH_MAX) :
    resolveLoop l l.length [] = .undefined := by
  rw [resolveLoop, if_neg (by omega)]
  extract_lets token k
  have hk : k ≤ l.length := by
    have hle : token.length ≤ l.length := (List.takeWhile_sublist _).length_le
    simp only [k]
    split <;> omega
  rw [if_neg (by omega)]
  rfl

theorem inputTooLong_drive (hd : getDrive path ≠ 0) : InputTooLong cwd path ↔
    PATH_MAX ≤ (afterRoot (path.drop (getDrive path))).length := by rw [InputTooLong, if_pos hd]

theorem realpath_drive_nil (hd : getDrive path ≠ 0) (hrest : path.drop (getDrive path) = []) :
    RefusesLong path (TooLong cwd path) (joinDrive path (getDrive path) (resolvePath [])) := by
  have hlen := (getDrive_take_append hd []).2
  have hfull : fullPath cwd path = path := if_pos hd
  have hres : resolvePath [] = .path [] := by
    rw [resolvePath, if_neg (by decide), resolveLoop]
    · rfl
    · simp
    · simp
  have hnorm : normalise path = path.take (getDrive path) ++ [] := by
    rw [normalise, hrest]
    rfl
  rw [hres, joinDrive]
  by_cases hfits : ([] : List Char).length + getDrive path < PATH_MAX
  · rw [if_pos hfits]
    refine ⟨fun h ↦ ?_, fun s hs ↦ (Outcome.ok.inj hs).symm.trans hnorm.symm, by simp⟩
    rcases h with h | ⟨qs, hqs, hover⟩ | hover
    · rw [inputTooLong_drive hd, hrest] at h
      exact absurd h (by decide)
    · rw [hfull, hrest] at hqs
      rcases List.prefix_cons_iff.mp hqs with rfl | ⟨qs', rfl, hqs'⟩
      · exact absurd hover (by decide)
      · rw [List.prefix_nil.mp hqs'] at hover
        exact absurd hover (by decide)
    · rw [hfull, hnorm, List.append_nil, hlen] at hover
      rw [List.length_nil] at hfits
      omega
  · rw [if_neg hfits]
    exact .null

theorem realpath_drive_bare (hd : getDrive path ≠ 0) {x : Char} {rest : List Char}
    (hrest : path.drop (getDrive path) = x :: rest) (hx : x ≠ '/') :
    RefusesLong path (TooLong cwd path)
      (joinDrive path (getDrive path) (resolvePath (x :: rest))) ↔
      PATH_MAX ≤ (x :: rest).length ∧ PATH_MAX ≤ getDrive path := by
  have hafter : afterRoot (x :: rest) = x :: rest := by
    rw [afterRoot]
    simpa using hx
  by_cases hle : PATH_MAX ≤ (x :: rest).length
  · have hres : resolvePath (x :: rest) = .null ENAMETOOLONG [] := by
      rw [resolvePath, if_pos hle]
      · simp [hx]
      · simpa using hx
    rw [hres, joinDrive, and_iff_right hle]
    by_cases hroom : ([] : List Char).length + getDrive path < PATH_MAX
    · rw [if_pos hroom]
      simp only [List.length_nil] at hroom
      refine iff_of_false (fun h ↦ ?_) (by omega)
      cases h.refused (.inl ((inputTooLong_drive hd).mpr (by rwa [hrest, hafter])))
    · rw [if_neg hroom]
      simp only [List.length_nil] at hroom
      exact iff_of_true .null (by omega)
  · have hres : resolvePath (x :: rest) = .undefined := by
      rw [resolvePath, if_neg hle, resolveLoop_empty (by simp) (Nat.lt_of_not_le hle)]
      · simp [hx]
      · simpa using hx
    rw [hres, joinDrive]
    exact iff_of_false (fun h ↦ h.defined rfl) fun h ↦ hle h.1

theorem realpath_drive (hd : getDrive path ≠ 0) :
    RefusesLong path (TooLong cwd path)
      (joinDrive path (getDrive path) (resolvePath (path.drop (getDrive path)))) ↔
      Handled cwd path := by
  rw [Handled, if_pos hd]
  rcases hrest : path.drop (getDrive path) with _ | ⟨x, rest⟩
  · exact iff_of_true (realpath_drive_nil hd hrest) trivial
  · by_cases hx : x = '/'
    · subst hx
      have hfull : fullPath cwd path = path := if_pos hd
      refine joinDrive_slash hd rfl rfl hrest ?_
      rw [TooLong, hfull, inputTooLong_drive hd, hrest]
      rfl
    · have hhandled : HandledAfter (getDrive path) (x :: rest) ↔
          PATH_MAX ≤ (x :: rest).length ∧ PATH_MAX ≤ getDrive path := by
        rw [HandledAfter]
        · simp
        · simpa using hx
      rw [hhandled]
      exact realpath_drive_bare hd hrest hx

theorem realpath_root (hcwd : getDrive (initCwd cwd) ≠ 0) (hd : getDrive path = 0)
    (hhead : path.head? = some '/') :
    RefusesLong (fullPath cwd path) (TooLong cwd path)
      (joinDrive (initCwd cwd) (getDrive (initCwd cwd)) (resolvePath path)) ↔ Handled cwd path := by
  obtain ⟨hdrive, hlen⟩ := getDrive_take_append hcwd path
  obtain ⟨tail, rfl⟩ : ∃ tail, path = '/' :: tail := by
    cases path with
    | nil => cases hhead
    | cons x tail => exact ⟨tail, by rw [Option.some.inj hhead]⟩
  have hfull : fullPath cwd ('/' :: tail) =
      (initCwd cwd).take (getDrive (initCwd cwd)) ++ '/' :: tail := by
    rw [fullPath, if_neg (not_not.mpr hd), if_pos hhead]
  rw [Handled, if_neg (not_not.mpr hd), if_pos hhead, TooLong, InputTooLong,
    if_neg (not_not.mpr hd), if_pos hhead]
  rw [← hfull] at hdrive
  refine joinDrive_slash ?_ ?_ hdrive.symm ?_ Iff.rfl
  · rw [hdrive]
    exact hcwd
  · rw [hdrive, hfull, List.take_left' hlen]
  · rw [hdrive, hfull, List.drop_left' hlen]

theorem realpath_relative (hcwd : getDrive (initCwd cwd) ≠ 0)
    (habs : Absolute ((initCwd cwd).drop (getDrive (initCwd cwd)))) (hd : getDrive path = 0)
    (hhead : path.head? ≠ some '/') (hlt : (initCwd cwd).length + 1 + path.length < PATH_MAX) :
    RefusesLong (fullPath cwd path) (TooLong cwd path)
      (joinDrive (fullPath cwd path) (getDrive (fullPath cwd path))
        (resolvePath ((fullPath cwd path).drop (getDrive (fullPath cwd path))))) := by
  have hfull : fullPath cwd path = initCwd cwd ++ '/' :: path := by
    rw [fullPath, if_neg (not_not.mpr hd), if_neg hhead]
  have hsplit : initCwd cwd ++ '/' :: path = (initCwd cwd).take (getDrive (initCwd cwd)) ++
      ((initCwd cwd).drop (getDrive (initCwd cwd)) ++ '/' :: path) := by
    rw [← List.append_assoc, List.take_append_drop]
  obtain ⟨hdrive, hlen⟩ := getDrive_take_append hcwd
    ((initCwd cwd).drop (getDrive (initCwd cwd)) ++ '/' :: path)
  rw [← hsplit, ← hfull] at hdrive
  have hrest : (fullPath cwd path).drop (getDrive (fullPath cwd path)) =
      (initCwd cwd).drop (getDrive (initCwd cwd)) ++ '/' :: path := by
    rw [hdrive, hfull, hsplit, List.drop_left' hlen]
  obtain ⟨tail, htail⟩ : ∃ tail, (initCwd cwd).drop (getDrive (initCwd cwd)) ++ '/' :: path =
      '/' :: tail := by
    rcases habs with hnil | hroot
    · exact ⟨path, by rw [hnil]; rfl⟩
    · cases hdrop : (initCwd cwd).drop (getDrive (initCwd cwd)) with
      | nil => exact ⟨path, rfl⟩
      | cons x t =>
        rw [hdrop] at hroot
        exact ⟨t ++ '/' :: path, by rw [Option.some.inj hroot]; rfl⟩
  have hshort : tail.length < PATH_MAX := by
    have := congrArg List.length htail
    rw [List.length_append, List.length_drop, List.length_cons, List.length_cons] at this
    omega
  have hinput : ¬ InputTooLong cwd path := by
    rw [InputTooLong, if_neg (not_not.mpr hd), if_neg hhead]
    omega
  rw [hrest, htail]
  refine (joinDrive_slash (hdrive ▸ hcwd) rfl rfl (hrest.trans htail) ?_).mpr (.inl hshort)
  rw [TooLong, or_iff_right hinput, or_iff_right (Nat.not_le_of_lt hshort)]

/-- Exactly which paths `__realpath` resolves or refuses as it should. -/
theorem realpath_refuses_long_iff (alloc : Bool) (hcwd : IsCwd cwd) (path : List Char) :
    RefusesLong (fullPath cwd path) (alloc = true ∧ path ≠ [] ∧ TooLong cwd path)
      (realpath alloc cwd (some path)).1 ↔
      (alloc = true → path ≠ [] → Handled cwd path) := by
  obtain ⟨hdrive, habs⟩ := hcwd.init
  rw [realpath]
  by_cases hnil : path = []
  · rw [hnil, if_pos List.length_nil]
    exact iff_of_true (.refusedBefore (by simp)) fun _ h ↦ absurd rfl h
  rw [if_neg (by simpa using hnil)]
  cases alloc with
  | false => exact iff_of_true (.refusedBefore (by simp)) fun h ↦ by cases h
  | true =>
    simp only [ne_eq, hnil, not_false_eq_true, true_and, forall_const]
    rw [if_neg (by simp)]
    by_cases hd : getDrive path = 0
    · rw [if_neg (not_not.mpr hd)]
      by_cases hhead : path.head? = some '/'
      · rw [if_pos hhead]
        exact realpath_root hdrive hd hhead
      · rw [if_neg hhead]
        have hhandled : Handled cwd path ↔ (initCwd cwd).length + 1 + path.length ≠ PATH_MAX := by
          rw [Handled, if_neg (not_not.mpr hd), if_neg hhead]
        rw [hhandled]
        by_cases hlt : (initCwd cwd).length + path.length < PATH_MAX
        · rw [if_pos hlt]
          by_cases hfull : PATH_MAX ≤ (initCwd cwd).length + 1 + path.length
          · rw [if_pos hfull]
            exact iff_of_false (fun h ↦ h.defined rfl) (by omega)
          · rw [if_neg hfull]
            have h := realpath_relative hdrive habs hd hhead (Nat.lt_of_not_le hfull)
            have heq : fullPath cwd path = initCwd cwd ++ '/' :: path := by
              rw [fullPath, if_neg (not_not.mpr hd), if_neg hhead]
            rw [← heq]
            exact iff_of_true h (by omega)
        · rw [if_neg hlt]
          exact iff_of_true .null (by omega)
    · rw [if_pos hd]
      have hfull : fullPath cwd path = path := if_pos hd
      rw [hfull]
      exact realpath_drive hd

end

theorem realpath_refuses_long_short :
    RefusesLong (fullPath [] "ux0:/a/../b".toList) (true = true ∧ "ux0:/a/../b".toList ≠ [] ∧
        TooLong [] "ux0:/a/../b".toList)
      (realpath true [] (some "ux0:/a/../b".toList)).1 := by
  refine (realpath_refuses_long_iff true (.inl rfl) _).mpr fun _ _ ↦ ?_
  rw [Handled, if_pos (by decide)]
  exact .inl (by decide)

def longPath : List Char := ['u', 'x', '0'] ++ ':' :: '/' :: List.replicate PATH_MAX 'a'

/-- A path that does not fit is taken for the root of its drive. -/
theorem realpath_redirects :
    (realpath true [] (some longPath)).1 = .ok "ux0:/".toList ∧
      ¬ RefusesLong (fullPath [] longPath) (true = true ∧ longPath ≠ [] ∧ TooLong [] longPath)
        (realpath true [] (some longPath)).1 := by
  have hchars : ∀ x ∈ ['u', 'x', '0'], driveChar x = true := by simp [driveChar]
  have hd : getDrive longPath = 4 := getDrive_of hchars
  have hne : getDrive longPath ≠ 0 := by omega
  have hdrop : longPath.drop 4 = '/' :: List.replicate PATH_MAX 'a' := by
    simp only [longPath, List.cons_append, List.nil_append, List.drop_succ_cons, List.drop_zero]
  have htake : longPath.take 4 = "ux0:".toList := by decide
  have hlong : PATH_MAX ≤ (List.replicate PATH_MAX 'a').length := by rw [List.length_replicate]
  have hres : resolvePath ('/' :: List.replicate PATH_MAX 'a') = .null ENAMETOOLONG ['/'] := by
    rw [resolvePath, if_pos hlong]
    exact fun h ↦ by cases h
  have hout : (realpath true [] (some longPath)).1 = .ok "ux0:/".toList := by
    rw [realpath, if_neg (by simp [longPath]), if_neg (by decide)]
    dsimp only
    rw [if_pos hne, hd, hdrop, hres, joinDrive, if_pos (by decide), htake]
    rfl
  refine ⟨hout, fun h ↦ ?_⟩
  have htoo : TooLong [] longPath := by
    refine .inl ?_
    rw [InputTooLong, if_pos hne, hd, hdrop]
    exact hlong
  cases hout.symm.trans (h.refused ⟨rfl, List.append_ne_nil_of_left_ne_nil (by decide) _, htoo⟩)

end SceLibcPosix.Path
