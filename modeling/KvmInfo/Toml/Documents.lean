import KvmInfo.Toml.Fuel
import KvmInfo.Toml.Lexemes

namespace Toml
open Exec Caps

mutual

inductive Value where
  | raw (v : Bytes)
  | array (vs : Values)
  | table (es : Entries)

inductive Values where
  | nil
  | cons (v : Value) (vs : Values)

inductive Entries where
  | nil
  | cons (key : Bytes) (v : Value) (es : Entries)

end

def Entries.names : Entries → List Bytes
  | .nil => []
  | .cons key _ es => key :: es.names

section meaning
variable (strtod : Bytes → Bool)

mutual

def Value.pushTo : Value → Arr → Arr
  | .raw v, a => { a with kind := .value, type := some (valtype strtod v), val := a.val ++ [v] }
  | .array vs, a => { a with kind := .array, arr := a.arr ++ [vs.fill (Arr.empty none)] }
  | .table es, a => { a with kind := .table, tab := a.tab ++ [es.fill (Table.empty none false)] }

def Values.fill : Values → Arr → Arr
  | .nil, a => a
  | .cons v vs, a => vs.fill (v.pushTo a)

def Value.addTo : Value → Bytes → Table → Table
  | .raw v, key, t => { t with kval := t.kval ++ [⟨key,v⟩] }
  | .array vs, key, t => { t with arr := t.arr ++ [vs.fill (Arr.empty (some key))] }
  | .table es, key, t => { t with tab := t.tab ++ [es.fill (Table.empty (some key) false)] }

def Entries.fill : Entries → Table → Table
  | .nil, t => t
  | .cons key v es, t => es.fill (v.addTo key t)

end

def Value.sort : Value → Kind × Option ValType
  | .raw v => (.value,some (valtype strtod v))
  | .array _ => (.array,none)
  | .table _ => (.table,none)

def Values.Of (s : Kind × Option ValType) : Values → Prop
  | .nil => True
  | .cons v vs => v.sort strtod = s ∧ vs.Of s

mutual

def Value.WellFormed : Value → Prop
  | .raw _ => True
  | .array vs => (∃ s, vs.Of strtod s) ∧ vs.WellFormed
  | .table es => es.names.Nodup ∧ es.WellFormed

def Values.WellFormed : Values → Prop
  | .nil => True
  | .cons v vs => v.WellFormed ∧ vs.WellFormed

def Entries.WellFormed : Entries → Prop
  | .nil => True
  | .cons _ v es => v.WellFormed ∧ es.WellFormed

end

end meaning

def Names (key text : Bytes) : Prop :=
  Scans true text ∧ normalizeKey (retToken .STRING 1 text text.length) = .ok key

def newlines (n : ℕ) : List Lexeme := List.replicate n .newline

mutual

inductive Value.Writes : Value → List Lexeme → Prop where
  | raw (v : Bytes) : Value.Writes (.raw v) [.str v]
  | array {vs : Values} {ls : List Lexeme} (n : ℕ) (h : Values.Writes vs ls) :
      Value.Writes (.array vs) (.lbracket :: (newlines n ++ ls ++ [.rbracket]))
  | table {es : Entries} {ls : List Lexeme} (n : ℕ) (h : Entries.Writes es ls) :
      Value.Writes (.table es) (.lbrace :: (newlines n ++ ls ++ [.rbrace]))

inductive Values.Writes : Values → List Lexeme → Prop where
  | nil : Values.Writes .nil []
  | last {v : Value} {ls : List Lexeme} (n : ℕ) (h : Value.Writes v ls) :
      Values.Writes (.cons v .nil) (ls ++ newlines n)
  | cons {v : Value} {vs : Values} {ls ls' : List Lexeme} (n k : ℕ) (h : Value.Writes v ls)
      (hs : Values.Writes vs ls') :
      Values.Writes (.cons v vs) (ls ++ (newlines n ++ .comma :: (newlines k ++ ls')))

inductive Entries.Writes : Entries → List Lexeme → Prop where
  | nil : Entries.Writes .nil []
  | last {key text : Bytes} {v : Value} {ls : List Lexeme} (n : ℕ) (hkey : Names key text)
      (h : Value.Writes v ls) :
      Entries.Writes (.cons key v .nil) (.str text :: .equal :: (ls ++ newlines n))
  | cons {key text : Bytes} {v : Value} {es : Entries} {ls ls' : List Lexeme} (n k : ℕ)
      (hkey : Names key text) (h : Value.Writes v ls) (hs : Entries.Writes es ls') :
      Entries.Writes (.cons key v es)
        (.str text :: .equal :: (ls ++ (newlines n ++ .comma :: (newlines k ++ ls'))))

end

inductive WritesFile : Entries → List Lexeme → Prop where
  | nil (n : ℕ) : WritesFile .nil (newlines n)
  | last {key text : Bytes} {v : Value} {ls : List Lexeme} (n : ℕ) (hkey : Names key text)
      (h : Value.Writes v ls) :
      WritesFile (.cons key v .nil) (newlines n ++ .str text :: .equal :: ls)
  | cons {key text : Bytes} {v : Value} {es : Entries} {ls ls' : List Lexeme} (n : ℕ)
      (hkey : Names key text) (h : Value.Writes v ls) (hs : WritesFile es ls') :
      WritesFile (.cons key v es) (newlines n ++ .str text :: .equal :: (ls ++ .newline :: ls'))

section keys
variable {strtod : Bytes → Bool}

theorem Value.pushTo_key (v : Value) (a : Arr) : (v.pushTo strtod a).key = a.key := by
  cases v <;> rfl

theorem Values.fill_key : ∀ (vs : Values) (a : Arr), (vs.fill strtod a).key = a.key
  | .nil, _ => rfl
  | .cons v vs, a => by rw [Values.fill,Values.fill_key vs,Value.pushTo_key]

theorem Value.addTo_key (v : Value) (key : Bytes) (t : Table) :
    (v.addTo strtod key t).key = t.key := by
  cases v <;> rfl

theorem Entries.fill_key : ∀ (es : Entries) (t : Table), (es.fill strtod t).key = t.key
  | .nil, _ => rfl
  | .cons key v es, t => by rw [Entries.fill,Entries.fill_key es,Value.addTo_key]

theorem addTo_keys (v : Value) (key : Bytes) (t : Table) (k : Option Bytes) :
    k ∈ (v.addTo strtod key t).keys ↔ k = some key ∨ k ∈ t.keys := by
  cases v with
  | raw v =>
    simp only [Value.addTo,Table.keys,List.map_append,List.map_cons,List.map_nil,List.mem_append,
      List.mem_singleton]
    tauto
  | array vs =>
    simp only [Value.addTo,Table.keys,List.map_append,List.map_cons,List.map_nil,List.mem_append,
      List.mem_singleton,Values.fill_key,Arr.empty]
    tauto
  | table es =>
    simp only [Value.addTo,Table.keys,List.map_append,List.map_cons,List.map_nil,List.mem_append,
      List.mem_singleton,Entries.fill_key,Table.empty]
    tauto

theorem fresh_addTo {key : Bytes} {v : Value} {es : Entries} {t : Table}
    (hkey : key ∉ es.names) (hnew : ∀ k ∈ key :: es.names, some k ∉ t.keys) :
    ∀ k ∈ es.names, some k ∉ (v.addTo strtod key t).keys := by
  intro k hk
  rw [addTo_keys,not_or]
  refine ⟨?_,hnew k (List.mem_cons_of_mem key hk)⟩
  rintro ⟨⟩
  exact hkey hk

end keys

end Toml
