import SceLibcPosix.Lib.Logs
import SceLibcPosix.Path.TooLong

namespace SceLibcPosix.Path

open Errno Components Logs

/-- The arrays of `PATH_MAX` characters of `__resolve_path` and `__realpath`. -/
inductive Buffer
  | left | nextToken | resolved | result | fullPath
deriving DecidableEq, Repr

/-- What the functions do to their arrays: they read or write the characters from `first` to `last`,
or use the null pointer that `strrchr` returns. -/
inductive Touch
  | range (b : Buffer) (first last : ℤ)
  | nullPointer
deriving DecidableEq, Repr

def Touch.InBounds : Touch → Prop
  | .range _ first last => first ≤ last → 0 ≤ first ∧ last < PATH_MAX
  | .nullPointer => False

abbrev Traced := Logged Touch

def touch (b : Buffer) (first last : ℤ) : Traced Unit := tell [.range b first last]

/-- The index of the first difference between two strings, where `strcmp` stops. -/
def differ (s s' : List Char) : ℕ := ((s.zip s').takeWhile fun p ↦ p.1 = p.2).length

def traceToken (resolved nextToken : List Char) : Traced Appended := do
  touch .nextToken 0 0
  if nextToken = [] then return .text resolved
  else
    touch .nextToken 0 (differ nextToken ['.'])
    if nextToken = ['.'] then return .text resolved
    else
      touch .nextToken 0 (differ nextToken ['.', '.'])
      if nextToken = ['.', '.'] then
        if 1 < resolved.length then
          touch .resolved (resolved.length - 1) (resolved.length - 1)
          -- `strrchr`
          touch .resolved 0 (resolved.length - 1)
          if '/' ∉ resolved.dropLast then
            tell [.nullPointer]
            return .undefined
          else
            let q := cut '/' resolved.dropLast
            touch .resolved q.length q.length
            return .text q
        else return .text resolved
      else
        -- `strlcat`
        touch .resolved 0 resolved.length
        touch .nextToken 0 nextToken.length
        let full := resolved ++ nextToken
        touch .resolved resolved.length (min full.length (PATH_MAX - 1))
        if PATH_MAX ≤ full.length then return .tooLong (full.take (PATH_MAX - 1))
        else return .text full

def traceAppend (resolved nextToken : List Char) : Traced Appended := do
  touch .resolved (resolved.length - 1) (resolved.length - 1)
  match resolved.getLast? with
  | none => return .undefined
  | some c =>
    if c ≠ '/' then
      if PATH_MAX ≤ resolved.length + 1 then return .tooLong resolved
      else
        touch .resolved resolved.length resolved.length
        touch .resolved (resolved.length + 1) (resolved.length + 1)
        traceToken (resolved ++ ['/']) nextToken
    else traceToken resolved nextToken

def traceStrip (resolved : List Char) : Traced (List Char) :=
  if 1 < resolved.length then do
    touch .resolved (resolved.length - 1) (resolved.length - 1)
    return stripSlash resolved
  else return stripSlash resolved

/-- How the loop of `__resolve_path` takes the next component, `n` characters long: `strchr`,
`memcpy` and `memmove`. -/
def traceTake (left : List Char) (leftLen n : ℕ) : Traced Unit := do
  touch .left 0 (n - 1)
  touch .nextToken 0 (n - 1)
  touch .nextToken n n
  if '/' ∈ left then
    touch .left (n + 1) (n + 1 + (leftLen - n : ℕ))
    touch .left 0 (leftLen - n : ℕ)
  else return ()

theorem loop_shorter {leftLen : ℕ} (left : List Char) (hne : leftLen ≠ 0) :
    (if '/' ∈ left then (left.dropWhile (· ≠ '/')).tail else left).length +
      (leftLen - if '/' ∈ left then (left.takeWhile (· ≠ '/')).length else leftLen) <
        left.length + leftLen := by
  by_cases h : '/' ∈ left
  · rw [if_pos h, if_pos h]
    obtain ⟨rest, hdrop, hlength, -⟩ := split_slash h
    rw [hdrop, List.tail_cons]
    omega
  · rw [if_neg h, if_neg h]
    omega

def traceLoop (left : List Char) (leftLen : ℕ) (resolved : List Char) : Traced Resolved :=
  if leftLen = 0 then do return .path (← traceStrip resolved)
  else do
    let nextToken := left.takeWhile (· ≠ '/')
    let n := if '/' ∈ left then nextToken.length else leftLen
    -- `strchr`
    touch .left 0 nextToken.length
    if PATH_MAX ≤ n then return .null ENAMETOOLONG resolved
    else
      traceTake left leftLen n
      match ← traceAppend resolved nextToken with
      | .undefined => return .undefined
      | .tooLong buf => return .null ENAMETOOLONG buf
      | .text resolved =>
        traceLoop (if '/' ∈ left then (left.dropWhile (· ≠ '/')).tail else left) (leftLen - n)
          resolved
termination_by left.length + leftLen
decreasing_by
  simpa only [dite_eq_ite] using loop_shorter left ‹leftLen ≠ 0›

/-- The beginning of `__resolve_path`, from `strlcpy` on. -/
def traceRest (left resolved : List Char) : Traced Resolved := do
  touch .left 0 (min left.length (PATH_MAX - 1))
  if PATH_MAX ≤ left.length then return .null ENAMETOOLONG resolved
  else traceLoop left left.length resolved

def traceResolve : List Char → Traced Resolved
  | ['/'] => do
    touch .resolved 0 1
    return .path ['/']
  | '/' :: left => do
    touch .resolved 0 1
    traceRest left ['/']
  | left => traceRest left []

/-- The end of each branch of `__realpath`. `reads` is what `strncpy` reads of the arrays. -/
def traceJoin (src : List Char) (d : ℕ) (reads : Traced Unit) : Resolved → Traced Outcome
  | .undefined => return .undefined
  | .null _ buf | .path buf => do
    touch .resolved 0 buf.length
    if buf.length + d < PATH_MAX then
      -- `strncpy`
      reads
      touch .result 0 (d - 1)
      -- `strcat`
      touch .result 0 d
      touch .resolved 0 buf.length
      touch .result d (d + buf.length)
      -- `strcpy`
      touch .result 0 (d + buf.length)
      return .ok (src.take d ++ buf)
    else return .null ENAMETOOLONG

/-- The making of `full_path`: `strcpy` and twice `strcat`. -/
def traceFull (cwd path : List Char) : Traced Unit := do
  touch .fullPath 0 cwd.length
  touch .fullPath 0 cwd.length
  touch .fullPath cwd.length (cwd.length + 1)
  touch .fullPath 0 (cwd.length + 1)
  touch .fullPath (cwd.length + 1) (cwd.length + 1 + path.length)

/-- What the branches of `__realpath` share: the text after a drive is resolved and put behind the
first `d` characters of `src`. -/
def traceBranch (text src : List Char) (d : ℕ) (reads : Traced Unit) : Traced Outcome := do
  let res ← traceResolve text
  traceJoin src d reads res

def traceRelative (cwd path : List Char) : Traced Outcome :=
  if cwd.length + path.length < PATH_MAX then do
    traceFull cwd path
    if PATH_MAX ≤ cwd.length + 1 + path.length then return .undefined
    else
      let fullPath := cwd ++ '/' :: path
      let d := getDrive fullPath
      -- `__get_drive`
      touch .fullPath 0 (fullPath.takeWhile driveChar).length
      touch .fullPath d fullPath.length
      traceBranch (fullPath.drop d) fullPath d (touch .fullPath 0 (d - 1))
  else return .null ENAMETOOLONG

def traceRealpath (alloc : Bool) (cwd : List Char) :
    Option (List Char) → Traced (Outcome × List Char)
  | none => return (.null EINVAL, cwd)
  | some path =>
    if path.length = 0 then return (.null ENOENT, cwd)
    else if !alloc then return (.null ENOMEM, cwd)
    else
      let d := getDrive path
      if d ≠ 0 then return (← traceBranch (path.drop d) path d (pure ()), cwd)
      else
        let cwd := initCwd cwd
        if path.head? = some '/' then
          return (← traceBranch path cwd (getDrive cwd) (pure ()), cwd)
        else return (← traceRelative cwd path, cwd)

section

variable {resolved nextToken left path src : List Char} {leftLen d : ℕ}

theorem value_traceToken :
    (traceToken resolved nextToken).value = appendToken resolved nextToken := by
  unfold traceToken appendToken
  simp only [Logged.value_bind, Logged.value_ite, Logged.value_pure]

theorem value_traceAppend : (traceAppend resolved nextToken).value = append resolved nextToken := by
  unfold traceAppend append
  rw [Logged.value_bind]
  cases resolved.getLast? with
  | none => rfl
  | some c => simp only [Logged.value_bind, Logged.value_ite, Logged.value_pure, value_traceToken]

theorem value_traceStrip : (traceStrip resolved).value = stripSlash resolved := by
  unfold traceStrip
  split <;> rfl

theorem value_traceLoop :
    (traceLoop left leftLen resolved).value = resolveLoop left leftLen resolved := by
  induction hn : left.length + leftLen using Nat.strongRecOn
    generalizing left leftLen resolved with
  | _ m ih =>
    rw [traceLoop, resolveLoop]
    by_cases hzero : leftLen = 0
    · rw [if_pos hzero, if_pos hzero, Logged.value_bind, value_traceStrip]
      rfl
    · rw [if_neg hzero, if_neg hzero]
      dsimp only
      rw [Logged.value_bind, Logged.value_ite]
      refine ite_congr rfl (fun _ ↦ rfl) fun _ ↦ ?_
      rw [Logged.value_bind, Logged.value_bind, value_traceAppend]
      cases append resolved (left.takeWhile (· ≠ '/')) with
      | undefined => rfl
      | tooLong buf => rfl
      | text buf => exact ih _ (hn ▸ loop_shorter left hzero) rfl

theorem traceResolve_bare (h : path.head? ≠ some '/') : traceResolve path = traceRest path [] := by
  unfold traceResolve
  split
  · exact absurd rfl h
  · exact absurd rfl h
  · rfl

theorem resolvePath_bare (h : path.head? ≠ some '/') : resolvePath path =
    if PATH_MAX ≤ path.length then .null ENAMETOOLONG [] else resolveLoop path path.length [] := by
  unfold resolvePath
  split
  · exact absurd rfl h
  · exact absurd rfl h
  · rfl

theorem value_traceRest : (traceRest left resolved).value = if PATH_MAX ≤ left.length
    then .null ENAMETOOLONG resolved else resolveLoop left left.length resolved := by
  rw [traceRest, Logged.value_bind, Logged.value_ite, value_traceLoop]
  rfl

theorem value_traceResolve (path : List Char) : (traceResolve path).value = resolvePath path := by
  by_cases h : path.head? = some '/'
  · obtain ⟨left, rfl⟩ := List.head?_eq_some_iff.mp h
    cases left with
    | nil => rfl
    | cons x left => exact value_traceRest
  · rw [traceResolve_bare h, resolvePath_bare h, value_traceRest]

theorem value_traceJoin {reads : Traced Unit} (res : Resolved) :
    (traceJoin src d reads res).value = joinDrive src d res := by
  cases res with
  | undefined => rfl
  | null errno buf | path buf =>
    simp only [traceJoin, joinDrive, Logged.value_bind, Logged.value_ite, Logged.value_pure]

theorem value_traceBranch {text : List Char} {reads : Traced Unit} :
    (traceBranch text src d reads).value = joinDrive src d (resolvePath text) := by
  rw [traceBranch, Logged.value_bind, value_traceResolve, value_traceJoin]

theorem value_traceRelative (cwd path : List Char) : ((traceRelative cwd path).value, cwd) =
    if cwd.length + path.length < PATH_MAX then
      if PATH_MAX ≤ cwd.length + 1 + path.length then (.undefined, cwd)
      else (joinDrive (cwd ++ '/' :: path) (getDrive (cwd ++ '/' :: path))
        (resolvePath ((cwd ++ '/' :: path).drop (getDrive (cwd ++ '/' :: path)))), cwd)
    else (.null ENAMETOOLONG, cwd) := by
  rw [traceRelative, Logged.value_ite]
  split
  · rw [Logged.value_bind, Logged.value_ite]
    split
    · rfl
    · simp only [Logged.value_bind, value_traceBranch]
  · rfl

theorem value_traceRealpath (alloc : Bool) (cwd : List Char) (path : Option (List Char)) :
    (traceRealpath alloc cwd path).value = realpath alloc cwd path := by
  cases path with
  | none => rfl
  | some path =>
    simp only [traceRealpath, realpath, Logged.value_bind, Logged.value_ite, Logged.value_pure,
      value_traceBranch, value_traceRelative]

end

end SceLibcPosix.Path
