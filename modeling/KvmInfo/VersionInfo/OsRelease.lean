import KvmInfo.Go.Runtime

namespace OsRelease
open Go

abbrev Table := List (Str × Str)

def Table.get (osrelease : Table) (key : Str) : Str := (osrelease.lookup key).getD []

def Table.set (osrelease : Table) (key value : Str) : Table := (key,value) :: osrelease

def etcOsRelease : Str := str "/etc/os-release"
def usrLibOsRelease : Str := str "/usr/lib/os-release"

def newline : UInt8 := 0x0A
def carriageReturn : UInt8 := 0x0D
def space : UInt8 := 0x20
def hash : UInt8 := 0x23
def equals : UInt8 := 0x3D
def doubleQuote : UInt8 := 0x22
def singleQuote : UInt8 := 0x27
def backslash : UInt8 := 0x5C
def dollar : UInt8 := 0x24
def backquote : UInt8 := 0x60

def maxScanTokenSize : ℕ := 64 * 1024

def dropCR (line : Str) : Str :=
  if line.getLast? = some carriageReturn then line.dropLast else line

-- A line that fills the buffer before its newline ends the scan with an error.
def scanLines (data : Str) : Except Str (List Str) :=
  let raw := split data newline
  let lines := if raw.getLast? = some [] then raw.dropLast else raw
  if lines.any (fun line => maxScanTokenSize ≤ line.length) then
    .error (str "bufio.Scanner: token too long")
  else .ok (lines.map dropCR)

def splitN2 (s : Str) (sep : UInt8) : List Str :=
  if sep ∈ s then [s.takeWhile (· ≠ sep),(s.dropWhile (· ≠ sep)).tail] else [s]

def trimSpace (s : Str) : Str :=
  ((s.dropWhile (· = space)).reverse.dropWhile (· = space)).reverse

def trimPrefix (s : Str) (c : UInt8) : Str := if s.head? = some c then s.tail else s

def trimSuffix (s : Str) (c : UInt8) : Str := if s.getLast? = some c then s.dropLast else s

def unescape (c : UInt8) : Str → Str
  | b :: d :: s =>
      if b = backslash ∧ d = c then c :: unescape c s else b :: unescape c (d :: s)
  | s => s

def unquote (value : Str) : Eval Str :=
  if doubleQuote ∈ value then do
    let first ← slice value 0 1
    let last ← sliceFrom value (value.length - 1)
    if first = last ∧ (doubleQuote ∈ first ∨ singleQuote ∈ first) then
      return trimSuffix (trimSuffix (trimPrefix (trimPrefix value singleQuote) doubleQuote)
        singleQuote) doubleQuote
    else return value
  else .ok value

def parseLine (line : Str) : Eval (Except Str (Str × Str)) := do
  if line.length = 0 then return .error (str "Skipping: zero-length")
  else if (← index line 0) = hash then return .error (str "Skipping: comment")
  else
    let splitString := splitN2 line equals
    if splitString.length ≠ 2 then return .error (str "Can not extract key=value")
    else
      let key := trimSpace (← index splitString 0)
      let value ← unquote (trimSpace (← index splitString 1))
      return .ok (key,unescape backquote (unescape backslash (unescape dollar (unescape doubleQuote value))))

def collect : List Str → Table → Eval Table
  | [], osrelease => .ok osrelease
  | v :: lines, osrelease => do
      match ← parseLine v with
      | .ok (key,value) => collect lines (osrelease.set key value)
      | .error _ => collect lines osrelease

def readFile (files : Str → Except Str Str) (filename : Str) : Eval (Except Str Table) :=
  match files filename with
  | .error err => .ok (.error err)
  | .ok data =>
      match scanLines data with
      | .error err => .ok (.error err)
      | .ok lines => do return .ok (← collect lines [])

def read (files : Str → Except Str Str) : Eval (Except Str Table) := do
  match ← readFile files etcOsRelease with
  | .ok osrelease => return .ok osrelease
  | .error _ => readFile files usrLibOsRelease

theorem unquote_ok (value : Str) : ∃ r, unquote value = .ok r := by
  unfold unquote
  split_ifs with h
  · have hpos : 0 < value.length := List.length_pos_of_mem h
    have hlast : ((value.length : ℕ) : ℤ) - 1 = ((value.length - 1 : ℕ) : ℤ) := by omega
    have hfirst : slice value 0 1 = .ok (value.take 1) := sliceTo_ok value 1 hpos
    rw [hfirst,hlast,sliceFrom_ok value _ (by omega)]
    simp only [bind,Except.bind]
    split_ifs <;> exact ⟨_,rfl⟩
  · exact ⟨_,rfl⟩

theorem parseLine_ok (line : Str) : ∃ r, parseLine line = .ok r := by
  unfold parseLine
  split_ifs with h0
  · exact ⟨_,rfl⟩
  · rw [show ((0 : ℤ)) = ((0 : ℕ) : ℤ) from rfl,index_ok line 0 (by omega)]
    simp only [bind,Except.bind]
    split_ifs with hc hl
    · exact ⟨_,rfl⟩
    · exact ⟨_,rfl⟩
    · have h2 : (splitN2 line equals).length = 2 := not_not.mp hl
      rw [index_ok _ 0 (by omega),show ((1 : ℤ)) = ((1 : ℕ) : ℤ) from rfl,index_ok _ 1 (by omega)]
      obtain ⟨value,hv⟩ := unquote_ok (trimSpace (splitN2 line equals)[1])
      simp only [hv]
      exact ⟨_,rfl⟩

theorem collect_ok (lines : List Str) (osrelease : Table) : ∃ r, collect lines osrelease = .ok r := by
  induction lines generalizing osrelease with
  | nil => exact ⟨_,rfl⟩
  | cons v lines ih =>
    obtain ⟨r,hr⟩ := parseLine_ok v
    rw [collect,hr]
    cases r with
    | error err => exact ih osrelease
    | ok entry => exact ih _

theorem readFile_ok (files : Str → Except Str Str) (filename : Str) :
    ∃ r, readFile files filename = .ok r := by
  unfold readFile
  cases files filename with
  | error err => exact ⟨_,rfl⟩
  | ok data =>
    dsimp only
    cases scanLines data with
    | error err => exact ⟨_,rfl⟩
    | ok lines =>
      obtain ⟨r,hr⟩ := collect_ok lines []
      exact ⟨.ok r,by simp only [hr]; rfl⟩

theorem read_ok (files : Str → Except Str Str) : ∃ r, read files = .ok r := by
  obtain ⟨r,hr⟩ := readFile_ok files etcOsRelease
  rw [read,hr]
  cases r with
  | error err => exact readFile_ok files usrLibOsRelease
  | ok osrelease => exact ⟨_,rfl⟩

end OsRelease
