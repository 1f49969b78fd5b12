import SceLibcPosix.Path.TooLong

namespace SceLibcPosix.Path

open Errno Components

/-- No string that is made of a path with a drive reaches `PATH_MAX`: not the text to resolve, not
the resolved text or its slash, not the result. -/
structure FullFits (full : List Char) : Prop where
  left : (afterRoot (full.drop (getDrive full))).length < PATH_MAX
  resolved : ∀ qs, qs <+: (full.drop (getDrive full)).splitOn '/' →
    qs ≠ (full.drop (getDrive full)).splitOn '/' →
    (body '/' (pathRules.normal [] qs)).length + 1 < PATH_MAX
  result : (normalise full).length < PATH_MAX

/-- No string that `__realpath` makes on its way reaches `PATH_MAX`. -/
structure Fits (cwd path : List Char) : Prop extends FullFits (fullPath cwd path) where
  joined : getDrive path = 0 → path.head? ≠ some '/' → (fullPath cwd path).length < PATH_MAX

section Lexical

variable {rest full : List Char}

theorem clean_normal (rest : List Char) :
    pathRules.Clean '/' (pathRules.normal [] (rest.splitOn '/')) := by
  apply Rules.Clean.normal
  · simp [Rules.Clean]
  · exact fun p ↦ notMem_of_mem_splitOn

theorem lexical_ne_nil (h : rest ≠ []) : lexical rest ≠ [] := by
  rw [lexical, if_neg h, rooted]
  split
  · simp
  · next hcs =>
    obtain ⟨c, cs, hc⟩ := List.exists_cons_of_ne_nil hcs
    simp [hc, body]

theorem normal_lexical (rest : List Char) : pathRules.normal [] ((lexical rest).splitOn '/') =
    pathRules.normal [] (rest.splitOn '/') := by
  by_cases h : rest = []
  · rw [h]
    rfl
  · rw [lexical, if_neg h, (clean_normal rest).normal_rooted]

theorem lexical_lexical (rest : List Char) : lexical (lexical rest) = lexical rest := by
  by_cases h : rest = []
  · rw [h]
    rfl
  · rw [lexical, if_neg (lexical_ne_nil h), normal_lexical, lexical, if_neg h]

theorem lexical_append (rest b : List Char) : lexical (rest ++ '/' :: b) =
    rooted '/' (pathRules.normal (pathRules.normal [] (rest.splitOn '/')) (b.splitOn '/')) := by
  rw [lexical, if_neg (by simp), List.splitOn_append_cons_self, Rules.normal_append]

theorem lexical_absolute (rest : List Char) : Absolute (lexical rest) := by
  by_cases h : rest = []
  · exact .inl (if_pos h)
  · right
    rw [lexical, if_neg h, rooted]
    split
    · rfl
    · next hcs =>
      obtain ⟨c, cs, hc⟩ := List.exists_cons_of_ne_nil hcs
      simp [hc, body]

theorem afterRoot_length (rest : List Char) : (afterRoot rest).length ≤ rest.length := by
  cases rest with
  | nil => rfl
  | cons x rest =>
    unfold afterRoot
    split
    · next h =>
      obtain ⟨-, rfl⟩ := List.cons.inj h
      exact Nat.le_succ _
    · exact le_rfl

theorem length_normal (ps : List (List Char)) :
    (body '/' (pathRules.normal [] ps)).length ≤ (body '/' ps).length :=
  (pathRules.length_body_normal [] ps).trans_eq (Nat.zero_add _)

theorem lexical_length (h : Absolute rest) : (lexical rest).length ≤ rest.length := by
  rcases h with rfl | hroot
  · exact le_rfl
  · cases rest with
    | nil => cases hroot
    | cons x tail =>
      obtain rfl : x = '/' := Option.some.inj hroot
      have hle := length_normal (tail.splitOn '/')
      rw [length_body_splitOn] at hle
      rw [lexical, if_neg (by simp), splitOn_slash, normal_nil, rooted]
      split
      · simp
      · exact hle

theorem normalise_split (hd : getDrive full ≠ 0) : getDrive (normalise full) = getDrive full ∧
    (normalise full).take (getDrive full) = full.take (getDrive full) ∧
    (normalise full).drop (getDrive full) = lexical (full.drop (getDrive full)) := by
  obtain ⟨hdrive, hlen⟩ := getDrive_take_append hd (lexical (full.drop (getDrive full)))
  exact ⟨hdrive, List.take_left' hlen, List.drop_left' hlen⟩

theorem normalise_normalise (hd : getDrive full ≠ 0) :
    normalise (normalise full) = normalise full := by
  obtain ⟨hdrive, htake, hdrop⟩ := normalise_split hd
  rw [normalise, hdrive, htake, hdrop, lexical_lexical]
  rfl

theorem getDrive_append (hd : getDrive full ≠ 0) (b : List Char) :
    getDrive (full ++ b) = getDrive full ∧
      (full ++ b).take (getDrive full) = full.take (getDrive full) ∧
      (full ++ b).drop (getDrive full) = full.drop (getDrive full) ++ b := by
  have hsplit : full ++ b = full.take (getDrive full) ++ (full.drop (getDrive full) ++ b) := by
    rw [← List.append_assoc, List.take_append_drop]
  obtain ⟨hdrive, hlen⟩ := getDrive_take_append hd (full.drop (getDrive full) ++ b)
  rw [hsplit]
  exact ⟨hdrive, List.take_left' hlen, List.drop_left' hlen⟩

theorem normalise_append (hd : getDrive full ≠ 0) (b : List Char) :
    normalise (normalise full ++ '/' :: b) = normalise (full ++ '/' :: b) := by
  obtain ⟨hdrive, htake, hdrop⟩ := normalise_split hd
  obtain ⟨hdrive₁, htake₁, hdrop₁⟩ := getDrive_append hd ('/' :: b)
  have hd' : getDrive (normalise full) ≠ 0 := hdrive ▸ hd
  obtain ⟨hdrive₂, htake₂, hdrop₂⟩ := getDrive_append hd' ('/' :: b)
  rw [hdrive] at hdrive₂ htake₂ hdrop₂
  have hleft : normalise (normalise full ++ '/' :: b) =
      full.take (getDrive full) ++ lexical (lexical (full.drop (getDrive full)) ++ '/' :: b) := by
    rw [normalise, hdrive₂, htake₂, htake, hdrop₂, hdrop]
  have hright : normalise (full ++ '/' :: b) =
      full.take (getDrive full) ++ lexical (full.drop (getDrive full) ++ '/' :: b) := by
    rw [normalise, hdrive₁, htake₁, hdrop₁]
  rw [hleft, hright, lexical_append, lexical_append, normal_lexical]

end Lexical

section Loop

variable {cs : List (List Char)} {text token left buf : List Char} {leftLen : ℕ} {errno : ℤ}

theorem appendToken_fits (hnext : (rooted '/' (pathRules.push cs token)).length < PATH_MAX) :
    appendToken (body '/' cs ++ ['/']) token ≠ .tooLong buf := by
  unfold appendToken
  by_cases hnil : token = []
  · simp [hnil]
  by_cases hdot : token = ['.']
  · simp [hdot]
  rw [if_neg hnil, if_neg hdot]
  by_cases hup : token = ['.', '.']
  · rw [if_pos hup]
    split
    · split <;> simp
    · simp
  · have hpush : pathRules.push cs token = cs ++ [token] := by
      rw [Rules.push, if_neg (by simp [pathRules, hnil, hdot]), if_neg (by simp [pathRules, hup])]
    rw [hpush, rooted, if_neg (by simp), body_concat] at hnext
    have hroom : ¬ PATH_MAX ≤ (body '/' cs ++ ['/'] ++ token).length := by
      simp only [List.length_append, List.length_cons, List.length_nil] at hnext ⊢
      omega
    rw [if_neg hup]
    dsimp only
    rw [if_neg hroom]
    simp

theorem append_fits (hcs : ∀ c ∈ cs, Proper '/' c) (ht : Pending '/' cs text)
    (hslash : (body '/' cs).length + 1 < PATH_MAX)
    (hnext : (rooted '/' (pathRules.push cs token)).length < PATH_MAX) :
    append text token ≠ .tooLong buf := by
  unfold append
  cases ht with
  | bare hne =>
    obtain ⟨x, hx, hsep⟩ := getLast?_body hcs hne
    rw [hx]
    dsimp only
    rw [if_pos hsep, if_neg (Nat.not_le_of_lt hslash)]
    exact appendToken_fits hnext
  | slashed =>
    rw [List.getLast?_concat]
    dsimp only
    rw [if_neg (by simp)]
    exact appendToken_fits hnext

theorem pending_step (hne : leftLen ≠ 0) (hle : left.length ≤ leftLen) :
    ∃ rest n, rest = (if '/' ∈ left then (left.dropWhile (· ≠ '/')).tail else left) ∧
      n = (if '/' ∈ left then (left.takeWhile (· ≠ '/')).length else leftLen) ∧ n ≤ leftLen ∧
      (leftLen - n ≠ 0 → rest.length ≤ leftLen - n) ∧
      pending left leftLen = left.takeWhile (· ≠ '/') :: pending rest (leftLen - n) := by
  refine ⟨_, _, rfl, rfl, ?_⟩
  rw [pending, if_neg hne]
  by_cases h : '/' ∈ left
  · obtain ⟨rest, hdrop, hlen, hsplit⟩ := split_slash h
    rw [if_pos h, if_pos h, hdrop, hsplit, pending, if_neg (by omega)]
    exact ⟨by omega, fun _ ↦ by rw [List.tail_cons]; omega, rfl⟩
  · have hwhole : left.takeWhile (· ≠ '/') = left :=
      List.takeWhile_eq_self_iff.mpr fun x hx ↦ decide_eq_true fun h' ↦ h (h' ▸ hx)
    rw [if_neg h, if_neg h, Nat.sub_self, List.splitOn_eq_singleton h, hwhole]
    exact ⟨le_rfl, fun h0 ↦ absurd rfl h0, rfl⟩

theorem resolveLoop_fits (hcs : ∀ c ∈ cs, Proper '/' c) (ht : Pending '/' cs text)
    (hle : leftLen ≠ 0 → left.length ≤ leftLen) (hlt : leftLen < PATH_MAX)
    (hlen : text.length < PATH_MAX)
    (hmid : ∀ qs, qs <+: pending left leftLen → qs ≠ pending left leftLen →
      (body '/' (pathRules.normal cs qs)).length + 1 < PATH_MAX)
    (hend : (rooted '/' (pathRules.normal cs (pending left leftLen))).length < PATH_MAX) :
    resolveLoop left leftLen text ≠ .null errno buf := by
  fun_induction resolveLoop left leftLen text generalizing cs with
  | case1 => simp
  | case3 => simp
  | case2 left leftLen text hne token n =>
    rename_i hlong
    obtain ⟨rest, m, -, hm, hmle, -⟩ := pending_step hne (hle hne)
    have hn : n = m := hm.symm
    omega
  | case4 left leftLen text hne token n hlong buf' =>
    rename_i happ
    obtain ⟨rest, m, -, -, -, -, hstep⟩ := pending_step hne (hle hne)
    rw [hstep] at hmid hend
    refine absurd happ (append_fits hcs ht (hmid [] List.nil_prefix (by simp)) ?_)
    by_cases hlast : pending rest (leftLen - m) = []
    · rw [hlast] at hend
      exact hend
    · have hroom : (body '/' (pathRules.push cs token)).length + 1 < PATH_MAX :=
        hmid [token] (List.cons_prefix_cons.mpr ⟨rfl, List.nil_prefix⟩) fun h ↦
          hlast (List.cons_injective h).symm
      exact Nat.lt_of_le_of_lt rooted_le_body hroom
  | case5 left leftLen text hne token n hlong text' happ =>
    rename_i ih
    obtain ⟨rest, m, hrest, hm, hmle, hrestle, hstep⟩ := pending_step hne (hle hne)
    have hn : n = m := hm.symm
    have hrest' : (if h : '/' ∈ left then (left.dropWhile (· ≠ '/')).tail else left) = rest :=
      hrest.symm
    have hpush := append_outcome token hcs ht hlen
    rw [happ] at hpush
    cases hpush with
    | text _ hpend hlen' =>
      rw [hrest', hn] at ih
      have hif : (if '/' ∈ left then (left.dropWhile (· ≠ '/')).tail else left) = rest :=
        hrest.symm
      rw [hif, hn]
      rw [hstep] at hmid hend
      apply ih (pathRules.push_proper hcs (slash_notMem_token left)) hpend hrestle (by omega) hlen'
      · intro qs hqs hne'
        apply hmid (token :: qs) (List.cons_prefix_cons.mpr ⟨rfl, hqs⟩)
        exact fun h ↦ hne' (List.cons_injective h)
      · exact hend

theorem resolvePath_slash_fits {tail : List Char} (hlt : tail.length < PATH_MAX)
    (hmid : ∀ qs, qs <+: ('/' :: tail).splitOn '/' → qs ≠ ('/' :: tail).splitOn '/' →
      (body '/' (pathRules.normal [] qs)).length + 1 < PATH_MAX)
    (hend : (lexical ('/' :: tail)).length < PATH_MAX) :
    resolvePath ('/' :: tail) = .path (lexical ('/' :: tail)) := by
  have hlex : lexical ('/' :: tail) =
      rooted '/' (pathRules.normal [] (('/' :: tail).splitOn '/')) := if_neg (by simp)
  rw [hlex] at hend ⊢
  have hout := resolvePath_slash hlt
  cases hres : resolvePath ('/' :: tail) with
  | undefined => rw [hres] at hout; cases hout
  | path buf =>
    rw [hres] at hout
    cases hout
    rfl
  | null errno buf =>
    cases tail with
    | nil => cases hres
    | cons x tail =>
      rw [resolvePath, if_neg (Nat.not_le_of_lt hlt)] at hres
      · rw [splitOn_slash] at hmid hend
        have hpend : pending (x :: tail) (x :: tail).length = (x :: tail).splitOn '/' :=
          if_neg (by simp)
        have hmid' : ∀ qs, qs <+: pending (x :: tail) (x :: tail).length →
            qs ≠ pending (x :: tail) (x :: tail).length →
            (body '/' (pathRules.normal [] qs)).length + 1 < PATH_MAX := by
          intro qs hqs hne
          rw [hpend] at hqs hne
          have := hmid ([] :: qs) (List.cons_prefix_cons.mpr ⟨rfl, hqs⟩) fun h ↦
            hne (List.cons_injective h)
          rwa [normal_nil] at this
        refine absurd hres (resolveLoop_fits (by simp) .slashed (fun _ ↦ le_rfl) hlt (by decide)
          hmid' ?_)
        rw [hpend]
        exact hend
      · simp

end Loop

section Realpath

variable {cwd path full src : List Char} {d : ℕ}

theorem resolvePath_nil : resolvePath [] = .path [] := by
  rw [resolvePath, if_neg (by decide), resolveLoop]
  · rfl
  · simp
  · simp

theorem joinDrive_fits (hd : getDrive full ≠ 0) (hsrc : src.take d = full.take (getDrive full))
    (hdd : d = getDrive full) (habs : Absolute (full.drop (getDrive full))) (h : FullFits full) :
    joinDrive src d (resolvePath (full.drop (getDrive full))) = .ok (normalise full) := by
  have hlen := (getDrive_take_append hd []).2
  have hresult := h.result
  rw [normalise, List.length_append, hlen] at hresult
  have hres : resolvePath (full.drop (getDrive full)) =
      .path (lexical (full.drop (getDrive full))) := by
    have hleft := h.left
    have hmid := h.resolved
    rcases habs with hnil | hroot
    · rw [hnil]
      exact resolvePath_nil
    · cases hrest : full.drop (getDrive full) with
      | nil =>
        rw [hrest] at hroot
        cases hroot
      | cons x tail =>
        rw [hrest] at hroot hleft hmid hresult
        obtain rfl : x = '/' := Option.some.inj hroot
        exact resolvePath_slash_fits hleft hmid (by omega)
  rw [hres, joinDrive, if_pos (by omega), hsrc]
  rfl

theorem FullFits.of_length (hd : getDrive full ≠ 0) (habs : Absolute (full.drop (getDrive full)))
    (h : full.length < PATH_MAX) : FullFits full := by
  have hrest : (full.drop (getDrive full)).length + getDrive full = full.length := by
    have := (getDrive_take_append hd []).2
    rw [List.length_take] at this
    rw [List.length_drop]
    omega
  refine ⟨?_, fun qs hqs hne ↦ ?_, ?_⟩
  · have := afterRoot_length (full.drop (getDrive full))
    omega
  · obtain ⟨ps, hps⟩ := hqs
    have hlen : (body '/' ((full.drop (getDrive full)).splitOn '/')).length = _ :=
      length_body_splitOn
    cases ps with
    | nil => exact absurd (by simpa using hps) hne
    | cons p ps =>
      rw [← hps] at hlen
      simp only [body, List.flatMap_append, List.flatMap_cons, List.length_append,
        List.length_cons] at hlen
      have := length_normal qs
      simp only [body] at this ⊢
      omega
  · have := lexical_length habs
    rw [normalise, List.length_append, (getDrive_take_append hd []).2]
    omega

theorem fullPath_drive (hcwd : IsCwd cwd) (path : List Char) :
    getDrive (fullPath cwd path) ≠ 0 := by
  have hd := hcwd.init.1
  unfold fullPath
  dsimp only
  split
  · next h => exact h
  · split
    · rw [(getDrive_take_append hd path).1]
      exact hd
    · have h := (getDrive_take_append hd ((initCwd cwd).drop (getDrive (initCwd cwd)) ++
        '/' :: path)).1
      rw [← List.append_assoc, List.take_append_drop] at h
      rw [h]
      exact hd

theorem fullPath_absolute (hcwd : IsCwd cwd)
    (habs : getDrive path ≠ 0 → Absolute (path.drop (getDrive path))) :
    Absolute ((fullPath cwd path).drop (getDrive (fullPath cwd path))) := by
  obtain ⟨hd, hrest⟩ := hcwd.init
  by_cases hp : getDrive path ≠ 0
  · rw [fullPath, if_pos hp]
    exact habs hp
  by_cases hhead : path.head? = some '/'
  · have hfull : fullPath cwd path = (initCwd cwd).take (getDrive (initCwd cwd)) ++ path := by
      rw [fullPath, if_neg hp, if_pos hhead]
    obtain ⟨hdrive, hlen⟩ := getDrive_take_append hd path
    rw [hfull, hdrive, List.drop_left' hlen]
    exact .inr hhead
  · have hfull : fullPath cwd path = (initCwd cwd).take (getDrive (initCwd cwd)) ++
        ((initCwd cwd).drop (getDrive (initCwd cwd)) ++ '/' :: path) := by
      rw [fullPath, if_neg hp, if_neg hhead, ← List.append_assoc, List.take_append_drop]
    obtain ⟨hdrive, hlen⟩ := getDrive_take_append hd
      ((initCwd cwd).drop (getDrive (initCwd cwd)) ++ '/' :: path)
    rw [hfull, hdrive, List.drop_left' hlen]
    right
    rcases hrest with hnil | hroot
    · rw [hnil]
      rfl
    · rw [List.head?_append, hroot]
      rfl

/-- All three branches of `__realpath` resolve what follows the drive of the full path, if there is
room for that path. -/
theorem realpath_join (hcwd : IsCwd cwd) (hne : path ≠ [])
    (hroom : getDrive path = 0 → path.head? ≠ some '/' → (fullPath cwd path).length < PATH_MAX) :
    ∃ src d, src.take d = (fullPath cwd path).take d ∧ d = getDrive (fullPath cwd path) ∧
      (realpath true cwd (some path)).1 =
        joinDrive src d (resolvePath ((fullPath cwd path).drop d)) := by
  have hd := hcwd.init.1
  rw [realpath, if_neg (by simpa using hne), if_neg (by decide)]
  dsimp only
  by_cases hp : getDrive path ≠ 0
  · have hfull : fullPath cwd path = path := if_pos hp
    rw [if_pos hp, hfull]
    exact ⟨_, _, rfl, rfl, rfl⟩
  by_cases hhead : path.head? = some '/'
  · have hfull : fullPath cwd path = (initCwd cwd).take (getDrive (initCwd cwd)) ++ path := by
      rw [fullPath, if_neg hp, if_pos hhead]
    obtain ⟨hsame, hlen⟩ := getDrive_take_append hd path
    rw [if_neg hp, if_pos hhead, hfull]
    refine ⟨initCwd cwd, getDrive (initCwd cwd), ?_, hsame.symm, ?_⟩
    · rw [List.take_left' hlen]
    · rw [List.drop_left' hlen]
  · have hfull : fullPath cwd path = initCwd cwd ++ '/' :: path := by
      rw [fullPath, if_neg hp, if_neg hhead]
    have hlen := hroom (not_not.mp hp) hhead
    rw [hfull, List.length_append, List.length_cons] at hlen
    rw [if_neg hp, if_neg hhead, if_pos (by omega), if_neg (by omega), ← hfull]
    exact ⟨_, _, rfl, rfl, rfl⟩

theorem realpath_fits (hcwd : IsCwd cwd) (hne : path ≠ [])
    (habs : getDrive path ≠ 0 → Absolute (path.drop (getDrive path))) (h : Fits cwd path) :
    (realpath true cwd (some path)).1 = .ok (normalise (fullPath cwd path)) := by
  obtain ⟨src, d, hsrc, rfl, hout⟩ := realpath_join hcwd hne h.joined
  rw [hout]
  apply joinDrive_fits (fullPath_drive hcwd path) hsrc rfl
  · exact fullPath_absolute hcwd habs
  · exact h.toFullFits

theorem realpath_normalise (hd : getDrive full ≠ 0) (h : (normalise full).length < PATH_MAX)
    (cwd : List Char) :
    (realpath true cwd (some (normalise full))).1 = .ok (normalise full) := by
  obtain ⟨hdrive, htake, hdrop⟩ := normalise_split hd
  have hne : getDrive (normalise full) ≠ 0 := hdrive ▸ hd
  have hnil : normalise full ≠ [] := by
    intro hnil
    rw [hnil] at hne
    exact hne (by decide)
  have hnabs : Absolute ((normalise full).drop (getDrive (normalise full))) := by
    rw [hdrive, hdrop]
    exact lexical_absolute _
  have hout := joinDrive_fits hne rfl rfl hnabs (.of_length hne hnabs h)
  rw [normalise_normalise hd] at hout
  rw [realpath, if_neg (by simpa using hnil), if_neg (by decide)]
  dsimp only
  rw [if_pos hne]
  exact hout

theorem realpath_fixed (hd : getDrive full ≠ 0) (hnorm : normalise full = full)
    (hlen : full.length < PATH_MAX) (cwd : List Char) :
    (realpath true cwd (some full)).1 = .ok full := by
  have hout := realpath_normalise hd (hnorm.symm ▸ hlen) cwd
  rwa [hnorm] at hout

/-- `__realpath` computes the lexical normal form, and leaves that alone. -/
theorem realpath_normal_form (hcwd : IsCwd cwd) (hne : path ≠ [])
    (habs : getDrive path ≠ 0 → Absolute (path.drop (getDrive path))) (h : Fits cwd path) :
    (realpath true cwd (some path)).1 = .ok (normalise (fullPath cwd path)) ∧
      ∀ cwd' p, (realpath true cwd (some path)).1 = .ok p →
        (realpath true cwd' (some p)).1 = .ok p := by
  have hout := realpath_fits hcwd hne habs h
  refine ⟨hout, fun cwd' p hp ↦ ?_⟩
  rw [hout] at hp
  rw [← Outcome.ok.inj hp]
  exact realpath_normalise (fullPath_drive hcwd path) h.result cwd'

end Realpath

theorem fits_up : Fits "ux0:/data".toList "../x//./y/".toList where
  joined _ _ := by decide
  toFullFits := .of_length (by decide) (.inr (by decide)) (by decide)

/-- A relative path that goes up, with a doubled slash and one at its end. -/
theorem realpath_normal_form_up :
    (realpath true "ux0:/data".toList (some "../x//./y/".toList)).1 = .ok "ux0:/x/y".toList := by
  have hcwd : IsCwd "ux0:/data".toList := .inr ⟨by decide, .inr (by decide)⟩
  have hdrive : getDrive "../x//./y/".toList = 0 := by decide
  rw [(realpath_normal_form hcwd (by decide) (fun h ↦ absurd hdrive h) fits_up).1]
  decide

/-- The empty path is refused. -/
theorem realpath_empty : getDrive [] = 0 ∧ Fits [] [] ∧
    (realpath true [] (some [])).1 ≠ .ok (normalise (fullPath [] [])) := by
  refine ⟨by decide, ⟨.of_length (by decide) (.inr (by decide)) (by decide), fun _ _ ↦ ?_⟩, ?_⟩
  · decide
  · exact fun h ↦ by cases h

end SceLibcPosix.Path
