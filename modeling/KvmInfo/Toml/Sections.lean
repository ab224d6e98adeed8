import KvmInfo.Toml.Written

namespace Toml
open Exec Caps

mutual

inductive Sections where
  | nil
  | table (key : Bytes) (es : Entries) (sub : Sections) (ss : Sections)
  | implied (key : Bytes) (sub : Sections) (ss : Sections)
  | array (key : Bytes) (ts : Tables) (ss : Sections)

inductive Tables where
  | nil
  | cons (es : Entries) (sub : Sections) (ts : Tables)

end

def Sections.names : Sections → List Bytes
  | .nil => []
  | .table key _ _ ss => key :: ss.names
  | .implied key _ ss => key :: ss.names
  | .array key _ ss => key :: ss.names

mutual

def Sections.depth : Sections → ℕ
  | .nil => 0
  | .table _ _ sub ss => max (sub.depth + 1) ss.depth
  | .implied _ sub ss => max (sub.depth + 1) ss.depth
  | .array _ ts ss => max (ts.depth + 1) ss.depth

def Tables.depth : Tables → ℕ
  | .nil => 0
  | .cons _ sub ts => max sub.depth ts.depth

end

section meaning
variable (strtod : Bytes → Bool)

mutual

def Sections.fill : Sections → Table → Table
  | .nil, t => t
  | .table key es sub ss, t =>
      ss.fill { t with tab := t.tab ++ [sub.fill (es.fill strtod (Table.empty (some key) false))] }
  | .implied key sub ss, t =>
      ss.fill { t with tab := t.tab ++ [sub.fill (Table.empty (some key) true)] }
  | .array key ts ss, t =>
      ss.fill { t with arr := t.arr ++ [ts.fill { Arr.empty (some key) with kind := .table }] }

def Tables.fill : Tables → Arr → Arr
  | .nil, a => a
  | .cons es sub ts, a =>
      ts.fill
        { a with tab := a.tab ++ [sub.fill (es.fill strtod (Table.empty (some anon) false))] }

end

mutual

def Sections.WellFormed : Sections → Prop
  | .nil => True
  | .table _ es sub ss =>
      es.WellFormed strtod ∧ (es.names ++ sub.names).Nodup ∧ sub.WellFormed ∧ ss.WellFormed
  | .implied _ sub ss => sub ≠ .nil ∧ sub.names.Nodup ∧ sub.WellFormed ∧ ss.WellFormed
  | .array _ ts ss => ts ≠ .nil ∧ ts.WellFormed ∧ ss.WellFormed

def Tables.WellFormed : Tables → Prop
  | .nil => True
  | .cons es sub ts =>
      es.WellFormed strtod ∧ (es.names ++ sub.names).Nodup ∧ sub.WellFormed ∧ ts.WellFormed

end

end meaning

inductive PathWrites : List Bytes → List Lexeme → Prop where
  | last {key text : Bytes} (hkey : Names key text) : PathWrites [key] [.part text]
  | cons {key text : Bytes} {keys : List Bytes} {ls : List Lexeme} (hkey : Names key text)
      (h : PathWrites keys ls) : PathWrites (key :: keys) (.part text :: .dot :: ls)

inductive Lines : Entries → List Lexeme → Prop where
  | nil (n : ℕ) : Lines .nil (newlines n)
  | cons {key text : Bytes} {v : Value} {es : Entries} {ls ls' : List Lexeme} (n : ℕ)
      (hkey : Names key text) (h : v.Writes ls) (hs : Lines es ls') :
      Lines (.cons key v es) (newlines n ++ .str text :: .equal :: (ls ++ .newline :: ls'))

mutual

inductive Sections.Writes : List Bytes → Sections → List Lexeme → Prop where
  | nil (path : List Bytes) : Sections.Writes path .nil []
  | table {path : List Bytes} {key : Bytes} {es : Entries} {sub ss : Sections}
      {lp lb ls ls' : List Lexeme} (hp : PathWrites (path ++ [key]) lp) (hb : Lines es lb)
      (h : Sections.Writes (path ++ [key]) sub ls) (hs : Sections.Writes path ss ls') :
      Sections.Writes path (.table key es sub ss)
        (.header :: (lp ++ .rbracket :: .newline :: (lb ++ (ls ++ ls'))))
  | implied {path : List Bytes} {key : Bytes} {sub ss : Sections} {ls ls' : List Lexeme}
      (h : Sections.Writes (path ++ [key]) sub ls) (hs : Sections.Writes path ss ls') :
      Sections.Writes path (.implied key sub ss) (ls ++ ls')
  | array {path : List Bytes} {key : Bytes} {ts : Tables} {ss : Sections} {ls ls' : List Lexeme}
      (h : Tables.Writes (path ++ [key]) ts ls) (hs : Sections.Writes path ss ls') :
      Sections.Writes path (.array key ts ss) (ls ++ ls')

inductive Tables.Writes : List Bytes → Tables → List Lexeme → Prop where
  | nil (path : List Bytes) : Tables.Writes path .nil []
  | cons {path : List Bytes} {es : Entries} {sub : Sections} {ts : Tables}
      {lp lb ls ls' : List Lexeme} (hp : PathWrites path lp) (hb : Lines es lb)
      (h : Sections.Writes path sub ls) (hs : Tables.Writes path ts ls') :
      Tables.Writes path (.cons es sub ts)
        (.header :: .header ::
          (lp ++ .rbracket :: .rbracket :: .newline :: (lb ++ (ls ++ ls'))))

end

section trees
variable {root t s u : Table} {f g : Table → Table} {p q : Path} {key : Bytes} {keys : List Bytes}

theorem update_append : Table.update f (p ++ q) = Table.update (Table.update f q) p := by
  induction p with
  | nil => rfl
  | cons step p ih =>
    funext root
    cases step with
    | tab i => rw [List.cons_append,Table.update,Table.update,ih]
    | elem i j => rw [List.cons_append,Table.update,Table.update,ih]

theorem update_update : (root.update f p).update g p = root.update (fun t => g (f t)) p := by
  induction p generalizing root with
  | nil => rfl
  | cons step p ih =>
    have hcomp : (fun t => Table.update g p (Table.update f p t)) =
        Table.update (fun t => g (f t)) p := funext fun t => ih
    cases step with
    | tab i => simp only [Table.update,List.modify_modify_eq,Function.comp_def,hcomp]
    | elem i j => simp only [Table.update,List.modify_modify_eq,Function.comp_def,hcomp]

theorem update_congr (h : root.find p = some t) (hfg : f t = g t) :
    root.update f p = root.update g p := by
  induction p generalizing root with
  | nil =>
    cases h
    exact hfg
  | cons step p ih =>
    cases step with
    | tab i =>
      obtain ⟨s,hs,hfind⟩ := find_cons_tab h
      rw [Table.update,Table.update,modify_of_getElem? hs,modify_of_getElem? hs,ih hfind]
    | elem i j =>
      obtain ⟨a,s,ha,hs,hfind⟩ := find_cons_elem h
      rw [Table.update,Table.update,modify_of_getElem? ha,modify_of_getElem? ha,
        modify_of_getElem? hs,modify_of_getElem? hs,ih hfind]

theorem update_id : root.update id p = root := by
  induction p generalizing root with
  | nil => rfl
  | cons step p ih =>
    have hid : Table.update id p = id := funext fun t => ih
    cases root with
    | mk key implicit kval arr tab =>
      cases step with
      | tab i => rw [Table.update,hid,List.modify_id]
      | elem i j =>
        have hmod : (fun a : Arr => { a with tab := a.tab.modify j id }) = id := by
          funext a
          cases a with
          | mk key kind type val arr tab => simp only [List.modify_id,id]
        rw [Table.update,hid,hmod,List.modify_id]

theorem update_key (hf : ∀ t, root.find p = some t → (f t).key = t.key) :
    (root.update f p).key = root.key := by
  cases p with
  | nil => exact hf root rfl
  | cons step p => cases step <;> rfl

theorem checkKey_congr (hkval : s.kval = t.kval) (harr : s.arr.map Arr.key = t.arr.map Arr.key)
    (htab : s.tab.map Table.key = t.tab.map Table.key) : checkKey s key = checkKey t key := by
  have hfind {α : Type} (l : List α) (name : α → Option Bytes) :
      l.findIdx? (fun a => name a = some key) = (l.map name).findIdx? (fun k => k = some key) := by
    rw [List.findIdx?_map]
    rfl
  rw [checkKey,checkKey,hkval,hfind s.arr Arr.key,hfind t.arr Arr.key,hfind s.tab Table.key,
    hfind t.tab Table.key,harr,htab]

-- The path the parser takes when it walks these names from the table, and the table it ends in:
-- through the last table of an array.
inductive Leads : Table → List Bytes → Path → Table → Prop where
  | here (t : Table) : Leads t [] [] t
  | tab {t u s : Table} {key : Bytes} {keys : List Bytes} {i : ℕ} {p : Path}
      (hc : checkKey t key = some (.tab i)) (hi : t.tab[i]? = some u) (h : Leads u keys p s) :
      Leads t (key :: keys) (.tab i :: p) s
  | elem {t u s : Table} {a : Arr} {key : Bytes} {keys : List Bytes} {i j : ℕ} {p : Path}
      (hc : checkKey t key = some (.arr i)) (hi : t.arr[i]? = some a) (hkind : a.kind = .table)
      (hlast : a.nelem = j + 1) (hj : a.tab[j]? = some u) (h : Leads u keys p s) :
      Leads t (key :: keys) (.elem i j :: p) s

theorem Leads.find (h : Leads root keys p s) : root.find p = some s := by
  induction h with
  | here t => rfl
  | tab hc hi h ih =>
    rw [Table.find,hi]
    exact ih
  | elem hc hi hkind hlast hj h ih =>
    rw [Table.find,hi]
    simp only [bind,Option.bind,hj]
    exact ih

theorem Leads.append {keys' : List Bytes} (h : Leads root keys p s) (h' : Leads s keys' q u) :
    Leads root (keys ++ keys') (p ++ q) u := by
  induction h with
  | here t => exact h'
  | tab hc hi h ih => exact .tab hc hi (ih h')
  | elem hc hi hkind hlast hj h ih => exact .elem hc hi hkind hlast hj (ih h')

theorem Leads.update (h : Leads root keys p s) (hf : (f s).key = s.key) :
    Leads (root.update f p) keys p (f s) := by
  induction h with
  | here t => exact .here (f t)
  | @tab t u s key keys i p hc hi h ih =>
    have hlt := (List.getElem?_eq_some_iff.mp hi).1
    have hkey : (u.update f p).key = u.key := by
      apply update_key
      intro v hv
      rw [h.find] at hv
      cases hv
      exact hf
    rw [Table.update,modify_of_getElem? hi]
    refine .tab (i := i) ?_ (List.getElem?_set_self hlt) (ih hf)
    rw [← hc]
    exact checkKey_congr rfl rfl (map_set_same hi hkey)
  | @elem t u s a key keys i j p hc hi hkind hlast hj h ih =>
    have hlt := (List.getElem?_eq_some_iff.mp hi).1
    have hlt' := (List.getElem?_eq_some_iff.mp hj).1
    rw [Table.update,modify_of_getElem? hi,modify_of_getElem? hj]
    refine .elem (i := i) (j := j) ?_ (List.getElem?_set_self hlt) hkind ?_
      (List.getElem?_set_self hlt') (ih hf)
    · rw [← hc]
      exact checkKey_congr rfl (map_set_same hi rfl) rfl
    · simpa [Arr.nelem] using hlast

theorem findIdx?_concat {α : Type} {l : List α} {x : α} {b : α → Bool}
    (hl : ∀ y ∈ l, b y = false) (hx : b x = true) : (l ++ [x]).findIdx? b = some l.length := by
  have hnone : l.findIdx? b = none := List.findIdx?_eq_none_iff.mpr hl
  rw [List.findIdx?_append,hnone]
  simp [List.findIdx?_cons,hx]

theorem fresh_lookups (h : some key ∉ s.keys) :
    (∀ e ∈ s.kval, decide (e.key = key) = false) ∧
      (∀ a ∈ s.arr, decide (a.key = some key) = false) ∧
      ∀ t ∈ s.tab, decide (t.key = some key) = false := by
  simp only [Table.keys,List.mem_append,List.mem_map,not_or,not_exists,not_and] at h
  obtain ⟨⟨hval,harr⟩,htab⟩ := h
  exact ⟨fun e he => decide_eq_false fun heq => hval e he (congrArg some heq),
    fun a ha => decide_eq_false (harr a ha),fun t ht => decide_eq_false (htab t ht)⟩

theorem checkKey_pushTab (h : some key ∉ s.keys) (hu : u.key = some key) :
    checkKey { s with tab := s.tab ++ [u] } key = some (.tab s.tab.length) := by
  obtain ⟨hval,harr,htab⟩ := fresh_lookups h
  simp only [checkKey,List.findIdx?_eq_none_iff.mpr hval,List.findIdx?_eq_none_iff.mpr harr,
    findIdx?_concat htab (decide_eq_true hu),Option.map_some]

theorem checkKey_pushArr {a : Arr} (h : some key ∉ s.keys) (ha : a.key = some key) :
    checkKey { s with arr := s.arr ++ [a] } key = some (.arr s.arr.length) := by
  obtain ⟨hval,harr,htab⟩ := fresh_lookups h
  simp only [checkKey,List.findIdx?_eq_none_iff.mpr hval,
    findIdx?_concat harr (decide_eq_true ha)]

theorem pushTab_keys (k : Option Bytes) :
    k ∈ ({ s with tab := s.tab ++ [u] } : Table).keys ↔ k = u.key ∨ k ∈ s.keys := by
  simp only [Table.keys,List.map_append,List.map_cons,List.map_nil,List.mem_append,
    List.mem_singleton]
  tauto

theorem pushArr_keys {a : Arr} (k : Option Bytes) :
    k ∈ ({ s with arr := s.arr ++ [a] } : Table).keys ↔ k = a.key ∨ k ∈ s.keys := by
  simp only [Table.keys,List.map_append,List.map_cons,List.map_nil,List.mem_append,
    List.mem_singleton]
  tauto

end trees

section names
variable {strtod : Bytes → Bool}

theorem entries_keys : ∀ (es : Entries) (t : Table) (k : Option Bytes),
    k ∈ (es.fill strtod t).keys ↔ (∃ name ∈ es.names, k = some name) ∨ k ∈ t.keys
  | .nil, t, k => by simp [Entries.fill,Entries.names]
  | .cons key v es, t, k => by
    rw [Entries.fill,entries_keys es,addTo_keys,Entries.names]
    simp only [List.mem_cons,exists_eq_or_imp]
    exact or_left_comm.trans or_assoc.symm

theorem fresh_fill {es : Entries} {t : Table} {names : List Bytes} (hempty : t.keys = [])
    (hnames : (es.names ++ names).Nodup) : ∀ k ∈ names, some k ∉ (es.fill strtod t).keys := by
  obtain ⟨-,-,hdisjoint⟩ := List.nodup_append.mp hnames
  intro k hk
  rw [entries_keys,hempty]
  rintro (⟨name,hname,heq⟩ | hmem)
  · cases heq
    exact hdisjoint k hname k hk rfl
  · cases hmem

theorem sections_key : ∀ (ss : Sections) (t : Table), (ss.fill strtod t).key = t.key
  | .nil, _ => rfl
  | .table key es sub ss, t => by rw [Sections.fill,sections_key ss]
  | .implied key sub ss, t => by rw [Sections.fill,sections_key ss]
  | .array key ts ss, t => by rw [Sections.fill,sections_key ss]

theorem tables_key : ∀ (ts : Tables) (a : Arr), (ts.fill strtod a).key = a.key
  | .nil, _ => rfl
  | .cons es sub ts, a => by rw [Tables.fill,tables_key ts]

end names

end Toml
