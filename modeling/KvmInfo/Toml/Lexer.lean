import KvmInfo.Library.Exec
import KvmInfo.Caps.Memory

namespace Toml
open Exec Caps

def tab : UInt8 := 0x09
def newline : UInt8 := 0x0A
def carriageReturn : UInt8 := 0x0D
def space : UInt8 := 0x20
def dquote : UInt8 := 0x22
def hash : UInt8 := 0x23
def squote : UInt8 := 0x27
def plus : UInt8 := 0x2B
def comma : UInt8 := 0x2C
def minus : UInt8 := 0x2D
def dot : UInt8 := 0x2E
def colon : UInt8 := 0x3A
def equal : UInt8 := 0x3D
def lbracket : UInt8 := 0x5B
def backslash : UInt8 := 0x5C
def rbracket : UInt8 := 0x5D
def underscore : UInt8 := 0x5F
def lbrace : UInt8 := 0x7B
def rbrace : UInt8 := 0x7D

inductive TokenType where
  | INVALID
  | DOT
  | COMMA
  | EQUAL
  | LBRACE
  | RBRACE
  | NEWLINE
  | LBRACKET
  | RBRACKET
  | STRING
  deriving DecidableEq, Repr

-- `ptr` is the text from the token on, up to `ctx->stop`.
structure Token where
  tok : TokenType
  lineno : ℕ
  ptr : Bytes
  len : ℕ
  eof : Bool
  deriving DecidableEq, Repr

inductive Error where
  | internal (line : ℕ)
  | syntaxError (lineno : ℕ) (msg : Bytes)
  | badKey (lineno : ℕ)
  | keyExists (lineno : ℕ) (key : Bytes)
  deriving DecidableEq, Repr

inductive Stop where
  | error (e : Error)
  | badPointer
  | outOfFuel
  deriving DecidableEq, Repr

abbrev Parser (α : Type) := Prog Stop Token α

def Token.text (t : Token) : Bytes := t.ptr.take t.len

def retToken (tok : TokenType) (lineno : ℕ) (ptr : Bytes) (len : ℕ) : Token :=
  ⟨tok,lineno,ptr,len,false⟩

def retEof (lineno : ℕ) : Token := { retToken .NEWLINE lineno [] 0 with eof := true }

def startsWith (p s : Bytes) : Bool := s.isPrefixOf p

def strstr (needle : Bytes) : Bytes → Option Bytes
  | [] => if needle = [] then some [] else none
  | c :: p => if startsWith (c :: p) needle then some (c :: p) else strstr needle p

def escapeBytes : Bytes := cstr "btnfr" ++ [dquote,backslash]

def hexBytes : Bytes := cstr "0123456789ABCDEF"

def lowerU : UInt8 := 0x75
def upperU : UInt8 := 0x55

-- What the loop over a double quoted string does with one byte before it looks for the quote.
inductive Escape where
  | next (hexreq : ℕ) (escape : Bool)
  | bad (msg : Bytes)
  | plain

def escapeStep (multiline : Bool) (hexreq : ℕ) (escape : Bool) (c : UInt8) : Escape :=
  if escape then
    if c ∈ escapeBytes then .next hexreq false
    else if c = lowerU then .next 4 false
    else if c = upperU then .next 8 false
    else if multiline && c = newline then .next hexreq false
    else .bad (cstr "bad escape char")
  else if hexreq ≠ 0 then
    if c ∈ hexBytes then .next (hexreq - 1) false else .bad (cstr "expect hex char")
  else if c = backslash then .next hexreq true
  else .plain

def tripleLoop : ℕ → Bool → ℕ → Bytes → Except Bytes (Bytes × ℕ)
  | _, _, qcnt, [] => .ok ([],qcnt)
  | hexreq, escape, qcnt, c :: p =>
      if qcnt < 3 then
        match escapeStep true hexreq escape c with
        | .next hexreq escape => tripleLoop hexreq escape qcnt p
        | .bad msg => .error msg
        | .plain => tripleLoop hexreq escape (if c = dquote then qcnt + 1 else 0) p
      else .ok (c :: p,qcnt)

def quoteLoop : ℕ → Bool → Bytes → Except Bytes Bytes
  | _, _, [] => .ok []
  | hexreq, escape, c :: p =>
      match escapeStep false hexreq escape c with
      | .next hexreq escape => quoteLoop hexreq escape p
      | .bad msg => .error msg
      | .plain => if c = newline ∨ c = dquote then .ok (c :: p) else quoteLoop hexreq escape p

def isUpper (c : UInt8) : Bool := 0x41 ≤ c && c ≤ 0x5A
def isLower (c : UInt8) : Bool := 0x61 ≤ c && c ≤ 0x7A
def isDigit (c : UInt8) : Bool := 0x30 ≤ c && c ≤ 0x39

def bareByte (dotisspecial : Bool) (c : UInt8) : Bool :=
  if c = dot && dotisspecial then false
  else isUpper c || isLower c || isDigit c || [plus,minus,underscore,dot,colon].contains c

-- The end of the string that starts at `p`: a pointer past its last byte.
def scanEnd (p : Bytes) (dotisspecial : Bool) : Except Bytes Bytes :=
  if startsWith p [squote,squote,squote] then
    match strstr [squote,squote,squote] (p.drop 3) with
    | none => .error (cstr "unterminated triple-s-quote")
    | some p => .ok (p.drop 3)
  else if startsWith p [dquote,dquote,dquote] then do
    let (p,qcnt) ← tripleLoop 0 false 0 (p.drop 3)
    if qcnt ≠ 3 then .error (cstr "unterminated triple-quote") else return p
  else if p.head? = some squote then
    let p := p.tail.dropWhile (fun c => c ≠ newline ∧ c ≠ squote)
    if p.head? ≠ some squote then .error (cstr "unterminated s-quote") else .ok p.tail
  else if p.head? = some dquote then do
    let p ← quoteLoop 0 false p.tail
    if p.head? ≠ some dquote then .error (cstr "unterminated quote") else return p.tail
  else .ok (p.dropWhile (bareByte dotisspecial))

def scanString (p : Bytes) (lineno : ℕ) (dotisspecial : Bool) : Except Error Token :=
  match scanEnd p dotisspecial with
  | .error msg => .error (.syntaxError lineno msg)
  | .ok q => .ok (retToken .STRING lineno p (p.length - q.length))

def isBlank (c : UInt8) : Bool := c = space || c = tab || c = carriageReturn

def skipBlank : Bool → Bytes → Bytes
  | _, [] => []
  | true, c :: p => if c = newline then c :: p else skipBlank true p
  | false, c :: p =>
      if c = hash then skipBlank true p
      else if isBlank c then skipBlank false p
      else c :: p

def punctuation (dotisspecial : Bool) (c : UInt8) : Option TokenType :=
  if dotisspecial && c = dot then some .DOT
  else if c = comma then some .COMMA
  else if c = equal then some .EQUAL
  else if c = lbrace then some .LBRACE
  else if c = rbrace then some .RBRACE
  else if c = lbracket then some .LBRACKET
  else if c = rbracket then some .RBRACKET
  else if c = newline then some .NEWLINE
  else none

def makeToken (dotisspecial : Bool) (lineno : ℕ) (p : Bytes) : Except Error Token :=
  match skipBlank false p with
  | [] => .ok (retEof lineno)
  | c :: p =>
      match punctuation dotisspecial c with
      | some tok => .ok (retToken tok lineno (c :: p) 1)
      | none => scanString (c :: p) lineno dotisspecial

def fail {α : Type} (e : Error) : Parser α := throw (.error e)

def nextToken (dotisspecial : Bool) : Parser Unit := do
  let t ← get
  match makeToken dotisspecial (t.lineno + t.text.count newline) (t.ptr.drop t.len) with
  | .error e => fail e
  | .ok t => set t

end Toml
