import KvmInfo.Go.Runtime
import KvmInfo.Library.Backtrack

namespace GoVersion
open Go Backtrack

structure Version where
  metadata : Str
  pre : Str
  segments : List ℤ
  si : ℕ
  original : Str
  deriving DecidableEq, Repr

def dot : UInt8 := 0x2E
def dash : UInt8 := 0x2D
def plusSign : UInt8 := 0x2B

def isLetter (b : UInt8) : Bool := (0x41 ≤ b && b ≤ 0x5A) || (0x61 ≤ b && b ≤ 0x7A)
def isAlpha (b : UInt8) : Bool := isLetter b || b == dash || b == 0x7E
def isWord (b : UInt8) : Bool := isDecimal b || isAlpha b

def chr (c : UInt8) : Regex UInt8 := .set (· == c)
def digits : Regex UInt8 := .plus (.set isDecimal)
def words : Regex UInt8 := .plus (.set isWord)
def dotted (n : ℕ) (r : Regex UInt8) (greedy : Bool) : Regex UInt8 :=
  .star greedy (.group n (.seq (chr dot) r))

def baseRegexp : Regex UInt8 := .group 1 (.seq digits (dotted 2 digits false))

def numericRelease : Regex UInt8 :=
  .seq (chr dash)
    (.group 4 (.seq digits (.seq (.star true (.set isWord)) (dotted 5 words true))))

def alphaRelease : Regex UInt8 :=
  .group 6 (.seq (.opt true (chr dash))
    (.group 7 (.seq (.plus (.set isAlpha)) (.seq (.star true (.set isWord)) (dotted 8 words true)))))

def metadataRegexp : Regex UInt8 :=
  .group 9 (.seq (chr plusSign) (.group 10 (.seq words (dotted 11 words true))))

def versionRegexp : Regex UInt8 :=
  .seq (.opt true (chr 0x76))
    (.seq baseRegexp
      (.seq (.opt true (.group 3 (.alt numericRelease alphaRelease)))
        (.opt false metadataRegexp)))

def numSubexp : ℕ := 11

def findStringSubmatch (pattern : Regex UInt8) (v : Str) : Option (List Str) :=
  (pattern.fullMatch v).map (fun t => v :: (List.range numSubexp).map (fun n => t.caps (n + 1)))

def numError (num : Str) (err : NumErr) : Str :=
  str "strconv.ParseInt: parsing \"" ++ num ++ str "\": " ++ err.text

def parseSegments : List Str → Except Str (List ℤ)
  | [] => .ok []
  | s :: rest =>
      match parseInt s with
      | (_,some err) => .error (numError s err)
      | (val,none) => (parseSegments rest).map (val :: ·)

def newVersion (v : Str) (pattern : Regex UInt8) : Eval (Except Str Version) :=
  match findStringSubmatch pattern v with
  | none => .ok (.error (str "Malformed version: " ++ v))
  | some submatches => do
      let segmentsStr := split (← index submatches 1) dot
      match parseSegments segmentsStr with
      | .error err => return .error (str "Error parsing version: " ++ err)
      | .ok segments =>
          let mut pre ← index submatches 7
          if pre = [] then
            pre ← index submatches 4
          return .ok
            { metadata := ← index submatches 10
              pre := pre
              segments := segments ++ List.replicate (3 - segments.length) 0
              si := segments.length
              original := v }

def NewVersion (v : Str) : Eval (Except Str Version) := newVersion v versionRegexp

def Version.string (v : Version) : Str :=
  join (v.segments.map formatInt) dot ++
    (if v.pre ≠ [] then dash :: v.pre else []) ++
    (if v.metadata ≠ [] then plusSign :: v.metadata else [])

def allZero : List ℤ → Bool
  | [] => true
  | s :: segs => if s ≠ 0 then false else allZero segs

def comparePart (preSelf preOther : Str) : ℤ :=
  if preSelf = preOther then 0
  else
    let selfInt := (parseInt preSelf).1
    let selfNumeric := (parseInt preSelf).2 = none
    let otherInt := (parseInt preOther).1
    let otherNumeric := (parseInt preOther).2 = none
    if preSelf = [] then (if otherNumeric then -1 else 1)
    else if preOther = [] then (if selfNumeric then 1 else -1)
    else if selfNumeric ∧ ¬otherNumeric then -1
    else if ¬selfNumeric ∧ otherNumeric then 1
    else if ¬selfNumeric ∧ ¬otherNumeric ∧ preOther < preSelf then 1
    else if selfInt > otherInt then 1
    else -1

def partAt (parts : List Str) (i : ℕ) : Eval Str :=
  if i < parts.length then index parts i else .ok []

-- `n` iterations of the loop remain, the next one at index `i`.
def comparePartsFrom (self other : List Str) : ℕ → ℕ → Eval ℤ
  | 0, _ => .ok 0
  | n + 1, i => do
      let partSelfPre ← partAt self i
      let partOtherPre ← partAt other i
      let compare := comparePart partSelfPre partOtherPre
      if compare ≠ 0 then return compare
      else comparePartsFrom self other n (i + 1)

def comparePrereleases (v other : Str) : Eval ℤ :=
  if v = other then .ok 0
  else
    let selfPreReleaseMeta := split v dot
    let otherPreReleaseMeta := split other dot
    let biggestLen :=
      if selfPreReleaseMeta.length > otherPreReleaseMeta.length then selfPreReleaseMeta.length
      else otherPreReleaseMeta.length
    comparePartsFrom selfPreReleaseMeta otherPreReleaseMeta biggestLen 0

def compareSegmentsFrom (self other : List ℤ) : ℕ → ℕ → Eval ℤ
  | 0, _ => .ok 0
  | n + 1, i =>
      if (i : ℤ) > self.length - 1 then do
        if !allZero (← sliceFrom other i) then return -1 else return 0
      else if (i : ℤ) > other.length - 1 then do
        if !allZero (← sliceFrom self i) then return 1 else return 0
      else do
        let lhs ← index self i
        let rhs ← index other i
        if lhs = rhs then compareSegmentsFrom self other n (i + 1)
        else if lhs < rhs then return -1
        else return 1

def Version.compare (v other : Version) : Eval ℤ :=
  if v.string = other.string then .ok 0
  else if v.segments = other.segments then
    if v.pre = [] ∧ other.pre = [] then .ok 0
    else if v.pre = [] then .ok 1
    else if other.pre = [] then .ok (-1)
    else comparePrereleases v.pre other.pre
  else
    let hS :=
      if v.segments.length < other.segments.length then other.segments.length
      else v.segments.length
    compareSegmentsFrom v.segments other.segments hS 0

end GoVersion
