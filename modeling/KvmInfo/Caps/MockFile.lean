import KvmInfo.Caps.MockScan
import KvmInfo.Toml.Integers
import KvmInfo.Toml.Lookup
import KvmInfo.Toml.ParseFile

namespace Caps
open Exec Toml

def kindArray : UInt8 := 0x61
def kindTable : UInt8 := 0x74

def kindCode : Kind → UInt8
  | .none => kindNone
  | .value => kindValue
  | .array => kindArray
  | .table => kindTable

def tomlArray (arr : Arr) : TomlArray := ⟨kindCode arr.kind,arr.nelem,arr.val⟩

def tomlTable (tab : Table) : TomlTable :=
  tab.arr.filterMap fun arr => arr.key.map fun key => (key,tomlArray arr)

def tomlParseFile (strtod : Bytes → Bool) (src : Bytes) : Option TomlTable :=
  match tomlParse strtod (enoughFuel src) src with
  | .ok root => some (tomlTable root)
  | .error _ => none

def tomlMock (strtod : Bytes → Bool) (fopen : Bytes → Option Bytes) (calloc : ℕ → Bool) : Mock :=
  ⟨fopen,tomlParseFile strtod,tomlRtoi,calloc⟩

theorem tomlParseFile_reads (strtod : Bytes → Bool) {io : FileIo} (hmalloc : io.malloc = true)
    (hio : ∀ round, io.bad round = false) {src : Bytes} (hlen : src.length < 2147483000) :
    tomlParseFile strtod src = (Toml.tomlParseFile strtod io src).toOption.map tomlTable := by
  have hnone : (List.range (rounds src)).find? (fun round => overflows round || io.bad round) =
      none :=
    List.find?_eq_none.mpr fun round hround => by simp [hio round,rounds_fit hlen hround]
  rw [tomlParseFile,parseFile_outcome strtod io src hmalloc,hnone]
  cases tomlParse strtod (enoughFuel src) src <;> rfl

def Integers : Values → List UInt32 → Prop
  | .nil, [] => True
  | .cons (.raw v) vs, x :: xs => tomlRtoi v = some (x.toNat : ℤ) ∧ Integers vs xs
  | _, _ => False

-- The entry of the document under `key` is an array of these numbers; without the entry, of none.
def EntryLists (key : Bytes) : Entries → List UInt32 → Prop
  | .nil, xs => xs = []
  | .cons k v es, xs =>
      if k = key then ∃ vs, v = .array vs ∧ Integers vs xs else EntryLists key es xs

section lookups
variable {strtod : Bytes → Bool} {key : Bytes} {xs : List UInt32}

theorem arrayIn_tomlTable (t : Table) (key : Bytes) :
    tomlArrayIn (tomlTable t) key = (Toml.tomlArrayIn t key).map tomlArray := by
  rw [tomlArrayIn,tomlTable,Toml.tomlArrayIn]
  induction t.arr with
  | nil => rfl
  | cons arr arrs ih =>
    cases hkey : arr.key with
    | none =>
      rw [List.filterMap_cons_none (by rw [hkey]; rfl),List.find?_cons_of_neg (by simp [hkey]),ih]
    | some k =>
      rw [List.filterMap_cons_some (b := (k,tomlArray arr)) (by rw [hkey]; rfl),List.lookup_cons]
      by_cases hk : k = key
      · rw [hk,List.find?_cons_of_pos (by simp [hkey,hk]),beq_self_eq_true]
        rfl
      · rw [List.find?_cons_of_neg (by simp [hkey,hk]),beq_false_of_ne (Ne.symm hk),ih]

theorem rawAt_tomlArray (arr : Arr) (idx : ℤ) :
    tomlRawAt (tomlArray arr) idx = Toml.tomlRawAt arr idx := by
  have hkind : kindCode arr.kind ≠ kindValue ↔ arr.kind ≠ .value := by
    cases arr.kind <;> decide
  rw [tomlRawAt,Toml.tomlRawAt]
  exact if_congr hkind rfl rfl

theorem integers_fill (strtod : Bytes → Bool) {vs : Values} {a : Arr} (h : Integers vs xs) :
    (vs.fill strtod a).val.map tomlRtoi = a.val.map tomlRtoi ++ xs.map (fun x => some (x.toNat : ℤ)) ∧
      (vs.fill strtod a).nelem = a.nelem + xs.length ∧
      (vs.fill strtod a).kind = if xs = [] then a.kind else .value := by
  induction xs generalizing vs a with
  | nil =>
    cases vs with
    | nil => simp [Values.fill]
    | cons v vs => cases v <;> cases h
  | cons x xs ih =>
    cases vs with
    | nil => cases h
    | cons v vs =>
      cases v with
      | raw v =>
        obtain ⟨hval,hlen,hkind⟩ := ih (a := (Value.raw v).pushTo strtod a) h.2
        rw [Values.fill,hval,hlen,hkind]
        refine ⟨?_,?_,?_⟩
        · simp [Value.pushTo,h.1]
        · simp only [Value.pushTo,Arr.nelem,List.length_append,List.length_cons,List.length_nil]
          omega
        · rw [if_neg (List.cons_ne_nil x xs)]
          exact ite_self Kind.value
      | array vs => cases h
      | table es => cases h

theorem integers_hold {vs : Values} (h : Integers vs xs) (k : Option Bytes) :
    (tomlArray (vs.fill strtod (Arr.empty k))).Holds tomlRtoi xs := by
  obtain ⟨hval,hlen,hkind⟩ := integers_fill strtod (a := Arr.empty k) h
  refine ⟨?_,?_,hval⟩
  · simp only [tomlArray,hkind]
    split_ifs with hxs
    · exact Or.inr ⟨rfl,hxs⟩
    · exact Or.inl rfl
  · simp only [tomlArray,hlen]
    exact Nat.zero_add xs.length

theorem lists_fill {es : Entries} {t : Table} (h : EntryLists key es xs) (hnodup : es.names.Nodup)
    (hnew : ∀ k ∈ es.names, some k ∉ t.keys) (ht : t.answer key = .none) :
    (tomlTable (es.fill strtod t)).Lists tomlRtoi key xs := by
  cases es with
  | nil =>
    have hnone : Toml.tomlArrayIn t key = none := congrArg Answer.arr ht
    rw [Entries.fill,TomlTable.Lists,arrayIn_tomlTable,hnone]
    exact h
  | cons k v es =>
    rw [EntryLists] at h
    obtain ⟨hkey,hrest⟩ := List.nodup_cons.mp hnodup
    have hfresh : ∀ name ∈ es.names, some name ∉ (v.addTo strtod k t).keys := fresh_addTo hkey hnew
    have hanswer : (v.addTo strtod k t).answer key =
        if k = key then v.answer strtod (some k) else t.answer key :=
      answer_addTo v (hnew k List.mem_cons_self)
    rw [Entries.fill]
    by_cases hk : k = key
    · rw [if_pos hk] at h hanswer
      obtain ⟨vs,rfl,hvs⟩ := h
      have harr : Toml.tomlArrayIn (es.fill strtod ((Value.array vs).addTo strtod k t)) key =
          some (vs.fill strtod (Arr.empty (some k))) := by
        rw [← hk] at hanswer ⊢
        exact congrArg Answer.arr ((answer_fill es _ hrest hfresh hkey).trans hanswer)
      rw [TomlTable.Lists,arrayIn_tomlTable,harr]
      exact integers_hold hvs (some k)
    · rw [if_neg hk] at h hanswer
      exact lists_fill h hrest hfresh (hanswer.trans ht)

end lookups

section provides
variable {strtod : Bytes → Bool} {fopen : Bytes → Option Bytes} {calloc : ℕ → Bool}
variable {doc : Entries} {ls : List Lexeme} {src file : Bytes} {exts msrs : List UInt32}

theorem tomlMock_provides (hdoc : doc.WellFormed strtod) (hnames : doc.names.Nodup)
    (hwrites : WritesFile doc ls) (hspells : Spells ls (cString src))
    (hexts : EntryLists (cstr "exts") doc exts) (hmsrs : EntryLists (cstr "msrs") doc msrs)
    (hopen : fopen file = some src) (hcalloc : ∀ n, calloc n = true) :
    (tomlMock strtod fopen calloc).Provides file exts msrs where
  parses := by
    have hempty : (Table.empty none false).keys = [] := rfl
    have hnew : ∀ k ∈ doc.names, some k ∉ (Table.empty none false).keys := by simp [hempty]
    refine ⟨src,tomlTable (doc.fill strtod (Table.empty none false)),hopen,?_,
      lists_fill hexts hnames hnew (answer_fresh (by simp [hempty])),
      lists_fill hmsrs hnames hnew (answer_fresh (by simp [hempty]))⟩
    have hparse := tomlParse_reads strtod hdoc hnames hwrites hspells
    change tomlParseFile strtod src = _
    rw [tomlParseFile,hparse]
  allocates := hcalloc

end provides

end Caps
