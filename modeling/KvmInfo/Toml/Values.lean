import KvmInfo.Toml.Lexer

namespace Toml
open Caps

def int64Min : ℤ := -2 ^ 63
def int64Max : ℤ := 2 ^ 63 - 1

def digitValue (c : UInt8) : Option ℕ :=
  if isDigit c then some (c.toNat - 0x30)
  else if isLower c then some (c.toNat - 0x61 + 10)
  else if isUpper c then some (c.toNat - 0x41 + 10)
  else none

-- The digits of `base` at the front of a text: their value, how many there are, the rest.
def scanDigits (base : ℕ) : ℕ → ℕ → Bytes → ℕ × ℕ × Bytes
  | value, n, [] => (value,n,[])
  | value, n, c :: s =>
      match digitValue c with
      | some d => if d < base then scanDigits base (value * base + d) (n + 1) s else (value,n,c :: s)
      | none => (value,n,c :: s)

def hexPrefixed (s : Bytes) : Bool :=
  match s with
  | a :: b :: c :: _ =>
      a = 0x30 && (b = 0x78 || b = 0x58) && (digitValue c).any (· < 16)
  | _ => false

def isSpaceByte (c : UInt8) : Bool := c = space || 0x09 ≤ c && c ≤ 0x0D

-- strtoll with base 0: the value (none when it is out of range) and the text it did not read.
def strtoll (nptr : Bytes) : Option ℤ × Bytes :=
  let s := nptr.dropWhile isSpaceByte
  let negative := s.head? = some minus
  let s := if s.head? = some minus ∨ s.head? = some plus then s.tail else s
  let (value,n,rest) :=
    if hexPrefixed s then scanDigits 16 0 0 (s.drop 2)
    else if s.head? = some 0x30 then scanDigits 8 0 0 s
    else scanDigits 10 0 0 s
  if n = 0 then (some 0,nptr)
  else
    let v : ℤ := if negative then -value else value
    (if int64Min ≤ v ∧ v ≤ int64Max then some v else none,rest)

def bufSize : ℕ := 100

def signOf (s : Bytes) : Bytes :=
  match s with
  | c :: _ => if c = plus ∨ c = minus then [c] else []
  | [] => []

-- Underscores are dropped and what is left must leave room for the terminating NUL.
def stripInto (buf s : Bytes) : Option Bytes :=
  let all := buf ++ s.filter (· ≠ underscore)
  if all.length < bufSize then some all else none

def tomlRtob (src : Bytes) : Option Bool :=
  if src = cstr "true" then some true
  else if src = cstr "false" then some false
  else none

def tomlRtoi (src : Bytes) : Option ℤ :=
  let sign := signOf src
  let s := src.drop sign.length
  if s.head? = some 0x30 then
    if s.tail ≠ [] then none else some 0
  else do
    let buf ← stripInto sign s
    match strtoll buf with
    | (some v,[]) => some v
    | _ => none

-- `strtod` says whether the C function reads the whole buffer and leaves errno clear.
def tomlRtod (strtod : Bytes → Bool) (src : Bytes) : Bool :=
  let sign := signOf src
  let s := src.drop sign.length
  if s.head? = some dot then false
  else if s.head? = some 0x30 ∧ s.tail ≠ [] ∧ s.tail.head? ≠ some dot then false
  else
    match stripInto sign s with
    | none => false
    | some buf => if buf.getLast? = some dot then false else strtod buf

structure Timestamp where
  year : Option ℕ
  month : Option ℕ
  day : Option ℕ
  hour : Option ℕ
  minute : Option ℕ
  second : Option ℕ
  z : Option Bytes
  deriving DecidableEq, Repr

-- `n` bytes of digits from index `i` on, with `sep` at the indices `a` and `b` only.
def stampDigits (sep : UInt8) (a b : ℕ) : ℕ → ℕ → ℕ → Bytes → Option (ℕ × Bytes)
  | 0, _, val, p => some (val,p)
  | _ + 1, _, _, [] => none
  | n + 1, i, val, xx :: p =>
      if xx = sep then
        if i = a ∨ i = b then stampDigits sep a b n (i + 1) val p else none
      else if isDigit xx then stampDigits sep a b n (i + 1) (val * 10 + (xx.toNat - 0x30)) p
      else none

def noStamp : Timestamp := ⟨none,none,none,none,none,none,none⟩

def stampDate (p : Bytes) : Option (Timestamp × Bytes) :=
  if 4 < p.length ∧ p[4]? = some minus then do
    let (val,p) ← stampDigits minus 4 7 10 0 0 p
    let ts := { noStamp with
      day := some (val % 100), month := some (val / 100 % 100), year := some (val / 100 / 100) }
    match p with
    | [] => return (ts,[])
    | c :: p => if c = 0x54 ∨ c = space then return (ts,p) else none
  else some (noStamp,p)

def stampOffset (p : Bytes) : Option (Bytes × Bytes) :=
  match p with
  | a :: b :: p => if isDigit a && isDigit b then some ([a,b],p) else none
  | _ => none

def stampZone (p : Bytes) : Option (Bytes × Bytes) :=
  match p with
  | [] => some ([],[])
  | c :: p =>
      if c = 0x5A then some ([c],p)
      else if c = plus ∨ c = minus then do
        let (hours,p) ← stampOffset p
        match p with
        | [] => return (c :: hours,[])
        | d :: q =>
            if d = colon then do
              let (minutes,p) ← stampOffset q
              return (c :: hours ++ d :: minutes,p)
            else return (c :: hours,d :: q)
      else some ([],c :: p)

def skipFraction (p : Bytes) : Bytes :=
  if p.head? = some dot then p.tail.dropWhile isDigit else p

def tomlRtots (src : Bytes) : Option Timestamp := do
  let (ts,p) ← stampDate src
  if p = [] then return ts
  else if p.length < 8 then none
  else
    let (val,p) ← stampDigits colon 2 5 8 0 0 p
    let ts := { ts with
      second := some (val % 100), minute := some (val / 100 % 100), hour := some (val / 100 / 100) }
    let p := skipFraction p
    if p = [] then return ts
    else
      let (z,p) ← stampZone p
      if p = [] then return { ts with z := some z } else none

inductive ValType where
  | string
  | bool
  | int
  | double
  | timestamp
  | date
  | time
  | unknown
  deriving DecidableEq, Repr

def valtype (strtod : Bytes → Bool) (val : Bytes) : ValType :=
  if val.head? = some squote ∨ val.head? = some dquote then .string
  else if (tomlRtob val).isSome then .bool
  else if (tomlRtoi val).isSome then .int
  else if tomlRtod strtod val then .double
  else
    match tomlRtots val with
    | some ts =>
        if ts.year.isSome && ts.hour.isSome then .timestamp
        else if ts.year.isSome then .date
        else .time
    | none => .unknown

end Toml
