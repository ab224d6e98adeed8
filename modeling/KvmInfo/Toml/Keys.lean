import KvmInfo.Toml.Lexer

namespace Toml
open Caps

def cString (s : Bytes) : Bytes := s.takeWhile (· ≠ 0)

def continuation (code shift : ℕ) : UInt8 := UInt8.ofNat (0x80 ||| ((code >>> shift) &&& 0x3F))

def leading (mark code shift : ℕ) : UInt8 := UInt8.ofNat (mark ||| (code >>> shift))

def ucsToUtf8 (code : ℕ) : Option Bytes :=
  if 0xD800 ≤ code ∧ code ≤ 0xDFFF then none
  else if 0xFFFE ≤ code ∧ code ≤ 0xFFFF then none
  else if code ≤ 0x7F then some [UInt8.ofNat code]
  else if code ≤ 0x7FF then some [leading 0xC0 code 6,continuation code 0]
  else if code ≤ 0xFFFF then some [leading 0xE0 code 12,continuation code 6,continuation code 0]
  else if code ≤ 0x1FFFFF then
    some [leading 0xF0 code 18,continuation code 12,continuation code 6,continuation code 0]
  else if code ≤ 0x3FFFFFF then
    some [leading 0xF8 code 24,continuation code 18,continuation code 12,continuation code 6,
      continuation code 0]
  else if code ≤ 0x7FFFFFFF then
    some [leading 0xFC code 30,continuation code 24,continuation code 18,continuation code 12,
      continuation code 6,continuation code 0]
  else none

def hexValue (c : UInt8) : Option ℕ :=
  if isDigit c then some (c.toNat - 0x30)
  else if 0x41 ≤ c && c ≤ 0x46 then some (c.toNat - 0x41 + 10)
  else none

-- `ch` is the byte read last: the message names it, not the `u` or `U` that asked for the digits.
def readHex (nhex : ℕ) : ℕ → UInt8 → ℕ → Bytes → Except Bytes (ℕ × Bytes)
  | 0, _, ucs, sp => .ok (ucs,sp)
  | _ + 1, ch, _, [] =>
      .error (cstr "\\" ++ [ch] ++ cstr " expects " ++ cstr (toString nhex) ++ cstr " hex chars")
  | n + 1, _, ucs, c :: sp =>
      match hexValue c with
      | none => .error (cstr "invalid hex chars for \\u or \\U")
      | some v => readHex nhex n c (ucs * 16 + v) sp

def readUcs (nhex : ℕ) (ch : UInt8) (sp : Bytes) : Except Bytes (Bytes × Bytes) := do
  let (ucs,sp) ← readHex nhex nhex ch 0 sp
  match ucsToUtf8 ucs with
  | none => .error (cstr "illegal ucs code in \\u or \\U")
  | some out => return (out,sp)

def escapeOf (ch : UInt8) : Option UInt8 :=
  [(0x62,0x08),(0x74,tab),(0x6E,newline),(0x66,0x0C),(0x72,carriageReturn),(dquote,dquote),
    (backslash,backslash)].lookup ch

def isSpacing (c : UInt8) : Bool := isBlank c || c = newline

def readEscape (kill : Bool) (sp : Bytes) : Except Bytes (Bytes × Bytes) :=
  match sp with
  | [] => .error (cstr "last backslash is invalid")
  | ch :: rest =>
      if kill && (ch = newline || ch = carriageReturn && rest.head? = some newline) then
        .ok ([],sp.dropWhile isSpacing)
      else if ch = lowerU then readUcs 4 ch rest
      else if ch = upperU then readUcs 8 ch rest
      else
        match escapeOf ch with
        | some out => .ok ([out],rest)
        | none => .error (cstr "illegal escape char \\" ++ [ch])

def normalizeLoop (kill : Bool) : ℕ → Bytes → Except Bytes Bytes
  | 0, _ => .ok []
  | _ + 1, [] => .ok []
  | fuel + 1, ch :: sp =>
      if ch ≠ backslash then (normalizeLoop kill fuel sp).map (ch :: ·)
      else do
        let (out,sp) ← readEscape kill sp
        return out ++ (← normalizeLoop kill fuel sp)

def normalizeString (src : Bytes) (kill : Bool) : Except Bytes Bytes :=
  normalizeLoop kill src.length src

def bareKeyByte (k : UInt8) : Bool :=
  isUpper k || isLower k || isDigit k || k = underscore || k = minus

def quoteWidth (p : Bytes) (ch : UInt8) : ℕ := if p[1]? = some ch ∧ p[2]? = some ch then 3 else 1

def quotedKey (t : Token) (ch : UInt8) : Except Error Bytes :=
  let n := quoteWidth t.ptr ch
  let src := (t.ptr.take (t.len - n)).drop n
  if ch = squote then .ok (cString src)
  else
    match normalizeString src false with
    | .ok ret => .ok (cString ret)
    | .error ebuf => .error (.syntaxError t.lineno ebuf)

def normalizeKey (t : Token) : Except Error Bytes :=
  let ch := t.ptr.headD 0
  if ch = squote ∨ ch = dquote then
    match quotedKey t ch with
    | .error e => .error e
    | .ok ret => if newline ∈ ret then .error (.badKey t.lineno) else .ok ret
  else if t.text.all bareKeyByte then .ok t.text
  else .error (.badKey t.lineno)

end Toml
