import Mathlib.Data.List.Basic
import SceLibcPosix.Errno
import SceLibcPosix.Lib.Components

namespace SceLibcPosix.Path

open Errno Components

def PATH_MAX : ℕ := 1024

/-- The characters before the colon of a drive prefix. -/
def driveChar (c : Char) : Bool := ('a' ≤ c ∧ c ≤ 'z') ∨ ('0' ≤ c ∧ c ≤ '9')

def getDrive (path : List Char) : ℕ :=
  let i := (path.takeWhile driveChar).length
  if path[i]? = some ':' then i + 1 else 0

def initCwd (cwd : List Char) : List Char := if cwd = [] then "app0:".toList else cwd

/-- How `__resolve_path` ends: it reads outside its buffer, it returns `NULL` or it returns
`resolved`. In the last two cases the buffer holds the text given. -/
inductive Resolved
  | undefined
  | null (errno : ℤ) (buf : List Char)
  | path (buf : List Char)
deriving DecidableEq, Repr

/-- What `__resolve_path` does with one component: an error, or the text to go on with. -/
inductive Appended
  | undefined
  | tooLong (buf : List Char)
  | text (buf : List Char)

/-- The end of the loop of `__resolve_path`, where `resolved` ends in a slash. -/
def appendToken (resolved nextToken : List Char) : Appended :=
  if nextToken = [] then .text resolved
  else if nextToken = ['.'] then .text resolved
  else if nextToken = ['.', '.'] then
    if 1 < resolved.length then
      -- `strrchr` would return `NULL`
      if '/' ∉ resolved.dropLast then .undefined else .text (cut '/' resolved.dropLast)
    else .text resolved
  else
    let resolved := resolved ++ nextToken
    if PATH_MAX ≤ resolved.length then .tooLong (resolved.take (PATH_MAX - 1)) else .text resolved

/-- The body of the loop of `__resolve_path`, once it has taken the next component. -/
def append (resolved nextToken : List Char) : Appended :=
  match resolved.getLast? with
  | none => .undefined
  | some c =>
    if c ≠ '/' then
      if PATH_MAX ≤ resolved.length + 1 then .tooLong resolved
      else appendToken (resolved ++ ['/']) nextToken
    else appendToken resolved nextToken

def stripSlash (resolved : List Char) : List Char :=
  if 1 < resolved.length ∧ resolved.getLast? = some '/' then resolved.dropLast else resolved

/-- The loop of `__resolve_path`. `leftLen` still counts the slashes that have been taken from
`left`, so it may exceed the length of `left`. -/
def resolveLoop (left : List Char) (leftLen : ℕ) (resolved : List Char) : Resolved :=
  if leftLen = 0 then .path (stripSlash resolved)
  else
    let nextToken := left.takeWhile (· ≠ '/')
    let n := if '/' ∈ left then nextToken.length else leftLen
    if PATH_MAX ≤ n then .null ENAMETOOLONG resolved
    else
      match append resolved nextToken with
      | .undefined => .undefined
      | .tooLong buf => .null ENAMETOOLONG buf
      | .text resolved =>
        resolveLoop (if '/' ∈ left then (left.dropWhile (· ≠ '/')).tail else left) (leftLen - n)
          resolved
termination_by left.length + leftLen
decreasing_by
  by_cases h : '/' ∈ left
  · have := List.length_pos_of_mem h
    have := (List.dropWhile_sublist (· ≠ '/') (l := left)).length_le
    simp only [h, ↓reduceDIte, List.length_tail]
    omega
  · simp only [h, ↓reduceDIte]
    omega

def resolvePath : List Char → Resolved
  | ['/'] => .path ['/']
  | '/' :: left =>
    if PATH_MAX ≤ left.length then .null ENAMETOOLONG ['/'] else resolveLoop left left.length ['/']
  | left =>
    if PATH_MAX ≤ left.length then .null ENAMETOOLONG [] else resolveLoop left left.length []

/-- What a call gives back: nothing that the language defines, `NULL` or a string. -/
inductive Outcome
  | undefined
  | null (errno : ℤ)
  | ok (path : List Char)
deriving DecidableEq, Repr

/-- The end of each branch of `__realpath`: the first `d` characters of `src` and what
`__resolve_path` has left in the buffer, whatever it has returned. -/
def joinDrive (src : List Char) (d : ℕ) : Resolved → Outcome
  | .undefined => .undefined
  | .null _ buf | .path buf =>
    if buf.length + d < PATH_MAX then .ok (src.take d ++ buf) else .null ENAMETOOLONG

/-- `__realpath`, for the result of `calloc` and the content of `__cwd`. The second part is the new
content of `__cwd`. -/
def realpath (alloc : Bool) (cwd : List Char) : Option (List Char) → Outcome × List Char
  | none => (.null EINVAL, cwd)
  | some path =>
    if path.length = 0 then (.null ENOENT, cwd)
    else if !alloc then (.null ENOMEM, cwd)
    else
      let d := getDrive path
      if d ≠ 0 then (joinDrive path d (resolvePath (path.drop d)), cwd)
      else if path.head? = some '/' then
        let cwd := initCwd cwd
        (joinDrive cwd (getDrive cwd) (resolvePath path), cwd)
      else
        let cwd := initCwd cwd
        if cwd.length + path.length < PATH_MAX then
          -- the slash between the two is not counted by the test
          if PATH_MAX ≤ cwd.length + 1 + path.length then (.undefined, cwd)
          else
            let fullPath := cwd ++ '/' :: path
            (joinDrive fullPath (getDrive fullPath)
              (resolvePath (fullPath.drop (getDrive fullPath))), cwd)
        else (.null ENAMETOOLONG, cwd)

end SceLibcPosix.Path
