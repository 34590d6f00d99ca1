import Mathlib
import TorEbpf.Dircommon.ConsDiffText
import TorEbpf.Lib.Sorting
import TorEbpf.Strings.ParseInt

/-!
# Versions

`tor_version_parse`, `tor_version_compare` and `compare_tor_version_str_ptr_` of `versions.c`.  Strings
are lists of bytes without the NUL at the end.

Numbers are compared by the sign of a wrapped difference.  For the fields that are read by
`tor_parse_uint64` this is the order of the numbers; an SVN revision can be any `int`, and then it is no
order at all.
-/

namespace TorEbpf.Or

open TorEbpf.Lib TorEbpf.Strings TorEbpf.Dircommon

/-- `status` of `tor_version_t`. -/
inductive VersionStatus where
  | pre
  | rc
  | release
deriving DecidableEq, Repr

def VersionStatus.toInt : VersionStatus → ℤ
  | .pre => 0
  | .rc => 1
  | .release => 2

/-- `tor_version_t`; `git_tag_len` is the length of `gitTag`. -/
structure TorVersion where
  major : ℤ := 0
  minor : ℤ := 0
  micro : ℤ := 0
  status : VersionStatus := .release
  patchlevel : ℤ := 0
  statusTag : List UInt8 := []
  svnRevision : ℤ := 0
  gitTag : List UInt8 := []
deriving DecidableEq, Repr

def maxStatusTagLen : ℕ := 32

def hexDigestLen : ℕ := 40

/-- `strcasecmpstart(s, "Tor ")` is 0. -/
def startsWithTor (s : List UInt8) : Bool :=
  (s.take 4).map (fun c => if 65 ≤ c ∧ c ≤ 90 then c + 32 else c) = [0x74, 0x6f, 0x72, 0x20]

def versionNumber : List UInt8 → Option (ℕ × List UInt8)
  | [] => none
  | c :: cp => if 48 ≤ c ∧ c ≤ 57 then torParseUlong (c :: cp) 0 (2 ^ 31 - 1) else none

def versionDot : List UInt8 → Option (List UInt8)
  | 0x2e :: cp => some cp
  | _ => none

/-- `find_whitespace` stops here. -/
def endsWord (c : UInt8) : Bool := c = 35 || c = 32 || c = 13 || c = 10 || c = 9

/-- `eat_whitespace`; `comment` in a comment, which goes to the end of the line. -/
def eatWhitespace (comment : Bool) : List UInt8 → List UInt8
  | [] => []
  | c :: s =>
      if comment then eatWhitespace (c ≠ 10) s
      else if c = 35 then eatWhitespace true s
      else if c = 32 ∨ c = 9 ∨ c = 10 ∨ c = 13 then eatWhitespace false s
      else c :: s

/-- `(int) strtol(cp, &eos, 10)`. -/
def strtolInt (cp : List UInt8) : ℤ :=
  match strtoNumber cp with
  | none => 0
  | some (negative, v, _) =>
      let r : ℤ := if negative then -v else v
      Int.bmod (max (-2 ^ 63) (min (2 ^ 63 - 1) r)) (2 ^ 32)

/-- The part after `"(git-"`: the digits up to the parenthesis. -/
def versionGitTag (out : TorVersion) (cp : List UInt8) : Option TorVersion :=
  let hex := cp.takeWhile (· ≠ 0x29)
  if hex.length = cp.length then none
  else if hexDigestLen < hex.length then none
  else if hex.length = 0 ∨ hex.length % 2 = 1 then none
  else (base16Decode hex).map fun digest => { out with gitTag := digest }

def versionStatusTag (out : TorVersion) (cp : List UInt8) : Option TorVersion :=
  let cp := match cp with
    | 0x2d :: t => t
    | 0x2e :: t => t
    | t => t
  let tag := cp.takeWhile fun c => !endsWord c
  let out := { out with statusTag := if maxStatusTagLen ≤ tag.length then tag.take 31 else tag }
  match eatWhitespace false (cp.drop tag.length) with
  | 0x28 :: 0x72 :: cp => some { out with svnRevision := strtolInt cp }
  | 0x28 :: 0x67 :: 0x69 :: 0x74 :: 0x2d :: cp => versionGitTag out cp
  | _ => some out

/-- `NUMBER(patchlevel)` and what follows. -/
def versionPatchlevel (out : TorVersion) (cp : List UInt8) : Option TorVersion := do
  let (patchlevel, cp) ← versionNumber cp
  versionStatusTag { out with patchlevel := patchlevel } cp

/-- From `NUMBER(micro)` on. -/
def versionMicro (out : TorVersion) (cp : List UInt8) : Option TorVersion := do
  let (micro, cp) ← versionNumber cp
  let out := { out with micro := micro }
  match cp with
  | [] => some out
  | 0x2e :: cp => versionPatchlevel out cp
  | 0x2d :: cp => versionStatusTag out (0x2d :: cp)
  | 0x70 :: 0x72 :: 0x65 :: cp => versionPatchlevel { out with status := .pre } cp
  | 0x72 :: 0x63 :: cp => versionPatchlevel { out with status := .rc } cp
  | _ => none

def torVersionParse (s : List UInt8) : Option TorVersion := do
  let (major, cp) ← versionNumber (if startsWithTor s then s.drop 4 else s)
  let (minor, cp) ← (versionDot cp).bind versionNumber
  let out : TorVersion := { major := major, minor := minor }
  match cp with
  | [] => some out
  | 0x2d :: cp => versionStatusTag out (0x2d :: cp)
  | cp => (versionDot cp).bind (versionMicro out)

/-- `CMP`: the sign of the difference as an `int`. -/
def cmpField (a b : ℤ) : Ordering := compare (Int.bmod (a - b) (2 ^ 32)) 0

def torVersionCompare (a b : TorVersion) : Ordering :=
  (cmpField a.major b.major).then <|
    (cmpField a.minor b.minor).then <|
      (cmpField a.micro b.micro).then <|
        (cmpField a.status.toInt b.status.toInt).then <|
          (cmpField a.patchlevel b.patchlevel).then <|
            (bytesCmp a.statusTag b.statusTag).then <|
              (cmpField a.svnRevision b.svnRevision).then <|
                (cmpField a.gitTag.length b.gitTag.length).then (bytesCmp a.gitTag b.gitTag)

def compareTorVersionStrPtr (a b : List UInt8) : Ordering :=
  match torVersionParse a, torVersionParse b with
  | some va, some vb => torVersionCompare va vb
  | some _, none => .lt
  | none, some _ => .gt
  | none, none => bytesCmp a b

end TorEbpf.Or
