import KvmInfo.Toml.Keys
import KvmInfo.Toml.Values

namespace Toml
open Exec Caps

structure Keyval where
  key : Bytes
  val : Bytes
  deriving DecidableEq, Repr

inductive Kind where
  | none
  | value
  | array
  | table
  deriving DecidableEq, Repr

mutual
structure Table where
  key : Option Bytes
  implicit : Bool
  kval : List Keyval
  arr : List Arr
  tab : List Table

structure Arr where
  key : Option Bytes
  kind : Kind
  type : Option ValType
  val : List Bytes
  arr : List Arr
  tab : List Table
end

def Table.empty (key : Option Bytes) (implicit : Bool) : Table := ⟨key,implicit,[],[],[]⟩

def Arr.empty (key : Option Bytes) : Arr := ⟨key,.none,none,[],[],[]⟩

def Arr.nelem (a : Arr) : ℕ := a.val.length + a.arr.length + a.tab.length

inductive Entry where
  | val (i : ℕ)
  | arr (i : ℕ)
  | tab (i : ℕ)
  deriving DecidableEq, Repr

def checkKey (tab : Table) (key : Bytes) : Option Entry :=
  match tab.kval.findIdx? (fun e => e.key = key) with
  | some i => some (.val i)
  | none =>
      match tab.arr.findIdx? (fun a => a.key = some key) with
      | some i => some (.arr i)
      | none => (tab.tab.findIdx? (fun t => t.key = some key)).map .tab

def keyExistsError (keytok : Token) : Error := .keyExists keytok.lineno (keytok.text.take 99)

def createKeyvalInTable (tab : Table) (keytok : Token) (val : Bytes) : Except Error Table := do
  let newkey ← normalizeKey keytok
  match checkKey tab newkey with
  | some _ => .error (keyExistsError keytok)
  | none => return { tab with kval := tab.kval ++ [⟨newkey,val⟩] }

def createKeytableInTable (tab : Table) (keytok : Token) : Except Error (Table × ℕ) := do
  let newkey ← normalizeKey keytok
  match checkKey tab newkey with
  | some (.tab i) =>
      match tab.tab[i]? with
      | some dest =>
          if dest.implicit then
            return ({ tab with tab := tab.tab.set i { dest with implicit := false } },i)
          else .error (keyExistsError keytok)
      | none => .error (keyExistsError keytok)
  | some _ => .error (keyExistsError keytok)
  | none => return ({ tab with tab := tab.tab ++ [Table.empty (some newkey) false] },tab.tab.length)

def createKeyarrayInTable (tab : Table) (keytok : Token) (skipIfExist : Bool) :
    Except Error (Table × Option ℕ) := do
  let newkey ← normalizeKey keytok
  match checkKey tab newkey with
  | some entry =>
      if skipIfExist then
        match entry with
        | .arr i => return (tab,some i)
        | _ => return (tab,none)
      else .error (keyExistsError keytok)
  | none => return ({ tab with arr := tab.arr ++ [Arr.empty (some newkey)] },some tab.arr.length)

def lift {α : Type} (r : Except Error α) : Parser α :=
  match r with
  | .ok a => pure a
  | .error e => fail e

def failHere {α : Type} (msg : String) : Parser α := do
  fail (.syntaxError (← get).lineno (cstr msg))

def eatToken (typ : TokenType) (fline : ℕ) : Parser Unit := do
  if (← get).tok = typ then nextToken false else fail (.internal fline)

-- At the end of the text every further token is a newline: the loop then has no end.
def skipNewlines : ℕ → Parser Unit
  | 0 => throw .outOfFuel
  | fuel + 1 => do
      if (← get).tok = .NEWLINE then do
        nextToken false
        skipNewlines fuel
      else pure ()

def Arr.setKind (a : Arr) (kind : Kind) : Arr := if a.kind = .none then { a with kind := kind } else a

def pushVal (strtod : Bytes → Bool) (a : Arr) (val : Bytes) : Option Arr :=
  let a := { a with val := a.val ++ [val] }
  if a.nelem = 1 then some { a with type := some (valtype strtod val) }
  else if a.type = some (valtype strtod val) then some a
  else none

def setTab (t : Table) (i : ℕ) (new : Table) : Table := { t with tab := t.tab.set i new }

def setArr (t : Table) (i : ℕ) (new : Arr) : Table := { t with arr := t.arr.set i new }

def pointer {α : Type} (p : Option α) : Parser α :=
  match p with
  | some a => pure a
  | none => throw .badPointer

section parser
variable (strtod : Bytes → Bool)

mutual

def parseTable : ℕ → Table → Parser Table
  | 0, _ => throw .outOfFuel
  | fuel + 1, tab => do
      eatToken .LBRACE 774
      let tab ← parseTableLoop fuel tab
      if (← get).tok = .RBRACE then do
        eatToken .RBRACE 802
        return tab
      else failHere "syntax error"

def parseTableLoop : ℕ → Table → Parser Table
  | 0, _ => throw .outOfFuel
  | fuel + 1, tab => do
      skipNewlines fuel
      if (← get).tok = .RBRACE then return tab
      else if (← get).tok = .STRING then do
        let tab ← parseKeyval fuel tab
        skipNewlines fuel
        if (← get).tok = .COMMA then do
          eatToken .COMMA 791
          parseTableLoop fuel tab
        else return tab
      else failHere "syntax error"

def parseArray : ℕ → Arr → Parser Arr
  | 0, _ => throw .outOfFuel
  | fuel + 1, arr => do
      eatToken .LBRACKET 824
      let arr ← parseArrayLoop fuel arr
      if (← get).tok = .RBRACKET then do
        eatToken .RBRACKET 918
        return arr
      else failHere "syntax error"

def parseArrayLoop : ℕ → Arr → Parser Arr
  | 0, _ => throw .outOfFuel
  | fuel + 1, arr => do
      skipNewlines fuel
      if (← get).tok = .RBRACKET then return arr
      else do
        let arr ← parseElement fuel arr
        skipNewlines fuel
        if (← get).tok = .COMMA then do
          eatToken .COMMA 907
          parseArrayLoop fuel arr
        else return arr

def parseElement : ℕ → Arr → Parser Arr
  | 0, _ => throw .outOfFuel
  | fuel + 1, arr => do
      match (← get).tok with
      | .STRING => do
          let arr := arr.setKind .value
          if arr.kind ≠ .value then failHere "a string array can only contain strings"
          else
            match pushVal strtod arr (← get).text with
            | none => failHere "array type mismatch"
            | some arr => do
                eatToken .STRING 868
                return arr
      | .LBRACKET => do
          let arr := arr.setKind .array
          if arr.kind ≠ .array then failHere "array type mismatch"
          else do
            let elem ← parseArray fuel (Arr.empty none)
            return { arr with arr := arr.arr ++ [elem] }
      | .LBRACE => do
          let arr := arr.setKind .table
          if arr.kind ≠ .table then failHere "array type mismatch"
          else do
            let elem ← parseTable fuel (Table.empty none false)
            return { arr with tab := arr.tab ++ [elem] }
      | _ => failHere "syntax error"

def parseKeyval : ℕ → Table → Parser Table
  | 0, _ => throw .outOfFuel
  | fuel + 1, tab => do
      let key ← get
      if key.tok ≠ .STRING then fail (.internal 931)
      else do
        eatToken .STRING 937
        if (← get).tok ≠ .EQUAL then failHere "missing ="
        else do
          eatToken .EQUAL 943
          match (← get).tok with
          | .STRING => do
              let tab ← lift (createKeyvalInTable tab key (← get).text)
              eatToken .STRING 957
              return tab
          | .LBRACKET => do
              let (tab,dest) ← lift (createKeyarrayInTable tab key false)
              let i ← pointer dest
              let arr ← parseArray fuel (← pointer tab.arr[i]?)
              return setArr tab i arr
          | .LBRACE => do
              let (tab,i) ← lift (createKeytableInTable tab key)
              let nxttab ← parseTable fuel (← pointer tab.tab[i]?)
              return setTab tab i nxttab
          | _ => failHere "syntax error"

end

def maxPath : ℕ := 10

-- The first argument counts down the room left in `tpath`.
def fillTabpath : ℕ → ℕ → List (Bytes × Token) → Parser (List (Bytes × Token))
  | 0, lineno, _ => fail (.syntaxError lineno (cstr "table path is too deep; max allowed is 10."))
  | room + 1, lineno, tpath => do
      let tok ← get
      if tok.tok ≠ .STRING then fail (.syntaxError lineno (cstr "invalid or missing key"))
      else do
        let key ← lift (normalizeKey tok)
        let tpath := tpath ++ [(key,tok)]
        nextToken true
        if (← get).tok = .RBRACKET then return tpath
        else if (← get).tok ≠ .DOT then fail (.syntaxError lineno (cstr "invalid key"))
        else do
          nextToken true
          fillTabpath room lineno tpath

inductive Step where
  | tab (i : ℕ)
  | elem (i j : ℕ)
  deriving DecidableEq, Repr

abbrev Path := List Step

def Table.find : Table → Path → Option Table
  | t, [] => some t
  | t, .tab i :: path => do (← t.tab[i]?).find path
  | t, .elem i j :: path => do
      let arr ← t.arr[i]?
      (← arr.tab[j]?).find path

def Table.update (f : Table → Table) : Path → Table → Table
  | [], t => f t
  | .tab i :: path, t => { t with tab := t.tab.modify i (Table.update f path) }
  | .elem i j :: path, t =>
      { t with arr := t.arr.modify i fun a => { a with tab := a.tab.modify j (Table.update f path) } }

def walkStep (root : Table) (curtab : Path) (key : Bytes) (tok : Token) : Parser (Table × Path) := do
  let t ← pointer (root.find curtab)
  match checkKey t key with
  | some (.tab i) => return (root,curtab ++ [.tab i])
  | some (.arr i) => do
      let nextarr ← pointer t.arr[i]?
      if nextarr.kind ≠ .table then fail (.internal 1062)
      else if nextarr.nelem = 0 then fail (.internal 1066)
      else return (root,curtab ++ [.elem i (nextarr.nelem - 1)])
  | some (.val _) => fail (keyExistsError tok)
  | none =>
      return (root.update (fun t => { t with tab := t.tab ++ [Table.empty (some key) true] }) curtab,
        curtab ++ [.tab t.tab.length])

def walkTabpath (root : Table) (curtab : Path) : List (Bytes × Token) → Parser (Table × Path)
  | [] => pure (root,curtab)
  | (key,tok) :: tpath => do
      let (root,curtab) ← walkStep root curtab key tok
      walkTabpath root curtab tpath

def anon : Bytes := cstr "__anon__"

-- [x.y.z]: create z = {} in x.y
def selectTable (root : Table) (curtab : Path) (z : Token) : Parser (Table × Path) := do
  let t ← pointer (root.find curtab)
  let (t,i) ← lift (createKeytableInTable t z)
  return (root.update (fun _ => t) curtab,curtab ++ [.tab i])

-- [[x.y.z]]: create z = [] in x.y and add a table to it
def selectElement (root : Table) (curtab : Path) (z : Token) : Parser (Table × Path) := do
  let t ← pointer (root.find curtab)
  let (t,dest) ← lift (createKeyarrayInTable t z true)
  match dest with
  | none => fail (.syntaxError z.lineno (cstr "key exists"))
  | some i => do
      let arr := (← pointer t.arr[i]?).setKind .table
      if arr.kind ≠ .table then fail (.syntaxError z.lineno (cstr "array mismatch"))
      else do
        let arr' := { arr with tab := arr.tab ++ [Table.empty (some anon) false] }
        return (root.update (fun _ => setArr t i arr') curtab,curtab ++ [.elem i arr.nelem])

def selectLast (double : Bool) (root : Table) (curtab : Path) (z : Token) :
    Parser (Table × Path) :=
  if double then selectElement root curtab z else selectTable root curtab z

def expect (typ : TokenType) (fline : ℕ) (msg : String) : Parser Unit := do
  if (← get).tok ≠ typ then failHere msg else eatToken typ fline

def optionally (c : Bool) (m : Parser Unit) : Parser Unit := if c then m else pure ()

def closeSelect (double : Bool) : Parser Unit := do
  expect .RBRACKET 1186 "expects ]"
  optionally double (expect .RBRACKET 1193 "expects ]]")
  if (← get).tok ≠ .NEWLINE then failHere "extra chars after ] or ]]" else pure ()

def parseSelect (root : Table) : Parser (Table × Path) := do
  if (← get).tok ≠ .LBRACKET then fail (.internal 1118)
  else do
    nextToken true
    let double := decide ((← get).tok = .LBRACKET)
    optionally double (nextToken true)
    let lineno := (← get).lineno
    let tpath ← fillTabpath maxPath lineno []
    match tpath.getLast? with
    | none => fail (.syntaxError lineno (cstr "empty table selector"))
    | some (_,z) => do
        let (root,curtab) ← walkTabpath root [] tpath.dropLast
        let selected ← selectLast double root curtab z
        closeSelect double
        return selected

def parseLoop : ℕ → Table → Path → Parser Table
  | 0, _, _ => throw .outOfFuel
  | fuel + 1, root, curtab => do
      let tok ← get
      if tok.eof then return root
      else
        match tok.tok with
        | .NEWLINE => do
            nextToken true
            parseLoop fuel root curtab
        | .STRING => do
            let t ← parseKeyval strtod fuel (← pointer (root.find curtab))
            if (← get).tok ≠ .NEWLINE then failHere "extra chars after value"
            else do
              eatToken .NEWLINE 1260
              parseLoop fuel (root.update (fun _ => t) curtab) curtab
        | .LBRACKET => do
            let (root,curtab) ← parseSelect root
            parseLoop fuel root curtab
        | _ => failHere "syntax error"

-- The artificial newline of length 0 that the parser starts with.
def startToken (conf : Bytes) : Token := retToken .NEWLINE 1 conf 0

def tomlParse (fuel : ℕ) (conf : Bytes) : Except Stop Table :=
  match parseLoop strtod fuel (Table.empty none false) [] (startToken (cString conf)) with
  | .ok (root,_) => .ok root
  | .error stop => .error stop

end parser

end Toml
