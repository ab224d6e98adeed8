import KvmInfo.Toml.Sections

namespace Toml
open Exec Caps

section walk
variable {root u s : Table} {keys : List Bytes} {p q : Path} {tpath : List (Bytes × Token)}
variable {st : Token}

theorem runs_pointer {α : Type} {x : Option α} {a : α} (h : x = some a) :
    Runs (pointer x) st a st := by
  rw [h]
  exact runs_pure

theorem walkTabpath_append (tpath tpath' : List (Bytes × Token)) :
    walkTabpath root p (tpath ++ tpath') = (do
      let (root,curtab) ← walkTabpath root p tpath
      walkTabpath root curtab tpath') := by
  induction tpath generalizing root p with
  | nil => rfl
  | cons piece tpath ih =>
    obtain ⟨key,tok⟩ := piece
    rw [List.cons_append,walkTabpath,walkTabpath,bind_assoc]
    congr
    funext r
    exact ih

theorem leads_walks (h : Leads u keys q s) (hfind : root.find p = some u)
    (hkeys : tpath.map Prod.fst = keys) :
    Runs (walkTabpath root p tpath) st (root,p ++ q) st := by
  induction h generalizing p tpath with
  | here t =>
    rw [List.map_eq_nil_iff.mp hkeys,List.append_nil]
    exact runs_pure
  | @tab t u s key keys i q hc hi h ih =>
    obtain ⟨⟨name,tok⟩,tpath,rfl,rfl,hrest⟩ := List.map_eq_cons_iff.mp hkeys
    have hnext : root.find (p ++ [.tab i]) = some u := by
      rw [find_append hfind,Table.find,hi]
      rfl
    have hstep : Runs (walkStep root p name tok) st (root,p ++ [.tab i]) st := by
      refine (runs_pointer hfind).bind ?_
      rw [hc]
      exact runs_pure
    have hwalk := ih hnext hrest
    rw [List.append_assoc] at hwalk
    exact hstep.bind hwalk
  | @elem t u s a key keys i j q hc hi hkind hlast hj h ih =>
    obtain ⟨⟨name,tok⟩,tpath,rfl,rfl,hrest⟩ := List.map_eq_cons_iff.mp hkeys
    have hnext : root.find (p ++ [.elem i j]) = some u := by
      rw [find_append hfind,Table.find,hi]
      simp only [bind,Option.bind,hj]
      rfl
    have hstep : Runs (walkStep root p name tok) st (root,p ++ [.elem i j]) st := by
      refine (runs_pointer hfind).bind ?_
      rw [hc]
      refine (runs_pointer hi).bind ?_
      rw [if_neg (not_not.mpr hkind),hlast,if_neg (Nat.succ_ne_zero j),Nat.add_sub_cancel]
      exact runs_pure
    have hwalk := ih hnext hrest
    rw [List.append_assoc] at hwalk
    exact hstep.bind hwalk

end walk

section headers
variable {root s : Table} {path keys : List Bytes} {key text : Bytes} {p : Path} {t : Token}
variable {lp rest : List Lexeme} {double : Bool}

theorem reads_part {w : List Lexeme} (hkey : Names key text) (ht : Reads (.part text :: w) t) :
    normalizeKey t = .ok key := by
  cases ht with
  | lexeme lineno h hs => exact names_token hkey hs.2

theorem undotted_sign {l : Lexeme} {ls : List Lexeme} (hl : ∀ v, l ≠ .str v := by simp) :
    Undotted (l :: ls) := by
  intro v hv
  exact absurd (Option.some.inj hv) (hl v)

theorem runs_fillTabpath (h : PathWrites keys lp) (ht : Reads (lp ++ .rbracket :: rest) t)
    (room : ℕ) (hroom : keys.length ≤ room) (lineno : ℕ) (before : List (Bytes × Token)) :
    ∃ tpath w, Runs (fillTabpath room lineno before) t (before ++ tpath) w ∧
      tpath.map Prod.fst = keys ∧ (∀ z ∈ tpath, normalizeKey z.2 = .ok z.1) ∧
      Reads (.rbracket :: rest) w := by
  induction h generalizing t room before with
  | @last key text hkey =>
    obtain ⟨room,rfl⟩ : ∃ k, room = k + 1 := ⟨room - 1,by simp at hroom; omega⟩
    obtain ⟨w,hrun,hw⟩ := runs_nextToken_dotted ht undotted_sign
    have hnorm := reads_part hkey ht
    have hstr : ¬t.tok ≠ .STRING := not_not.mpr ht.tok
    refine ⟨[(key,t)],w,?_,rfl,by simpa using hnorm,hw⟩
    rw [fillTabpath]
    refine runs_get.bind ?_
    rw [if_neg hstr]
    simp only [hnorm,lift,pure_bind]
    exact hrun.bind (runs_if_pos hw.tok runs_pure)
  | @cons key text keys ls hkey h ih =>
    obtain ⟨room,rfl⟩ : ∃ k, room = k + 1 := ⟨room - 1,by simp at hroom; omega⟩
    have hnorm := reads_part hkey ht
    obtain ⟨v,hrun,hv⟩ := runs_nextToken_dotted ht undotted_sign
    have hundotted : Undotted (ls ++ .rbracket :: rest) := by
      cases h <;> exact undotted_sign
    obtain ⟨x,hrun',hx⟩ := runs_nextToken_dotted hv hundotted
    obtain ⟨tpath,w,hfill,hkeys,hnames,hw⟩ :=
      ih hx room (by simpa using hroom) (before ++ [(key,t)])
    refine ⟨(key,t) :: tpath,w,?_,by rw [List.map_cons,hkeys],
      List.forall_mem_cons.mpr ⟨hnorm,hnames⟩,hw⟩
    have hstr : ¬t.tok ≠ .STRING := not_not.mpr ht.tok
    have htok : v.tok ≠ .RBRACKET := by
      rw [hv.tok]
      decide
    rw [fillTabpath]
    refine runs_get.bind ?_
    rw [if_neg hstr]
    simp only [hnorm,lift,pure_bind]
    refine hrun.bind (runs_if_neg htok (runs_if_neg (not_not.mpr hv.tok) ?_))
    rw [List.append_assoc] at hfill
    exact hrun'.bind hfill

def openers (double : Bool) : List Lexeme := if double then [.header,.header] else [.header]

def closers (double : Bool) : List Lexeme := if double then [.rbracket,.rbracket] else [.rbracket]

theorem runs_closeSelect (ht : Reads (closers double ++ .newline :: rest) t) :
    ∃ w, Runs (closeSelect double) t () w ∧ Reads (.newline :: rest) w := by
  have hexpect {fline : ℕ} {msg : String} {t : Token} {ls : List Lexeme}
      (ht : Reads (.rbracket :: ls) t) :
      ∃ w, Runs (expect .RBRACKET fline msg) t () w ∧ Reads ls w := by
    obtain ⟨w,hrun,hw⟩ := runs_eatToken ht fline
    exact ⟨w,runs_if_neg (not_not.mpr ht.tok) hrun,hw⟩
  cases double with
  | false =>
    obtain ⟨w,hrun,hw⟩ := hexpect ht
    exact ⟨w,hrun.bind (runs_pure.bind (runs_if_neg (not_not.mpr hw.tok) runs_pure)),hw⟩
  | true =>
    obtain ⟨v,hrun,hv⟩ := hexpect ht
    obtain ⟨w,hrun',hw⟩ := hexpect hv
    exact ⟨w,hrun.bind (hrun'.bind (runs_if_neg (not_not.mpr hw.tok) runs_pure)),hw⟩

theorem undotted_path (h : PathWrites keys lp) : Undotted (lp ++ rest) := by
  cases h <;> exact undotted_sign

theorem parseSelect_reads (hp : PathWrites (path ++ [key]) lp) (hdepth : path.length < maxPath)
    (ht : Reads (openers double ++ (lp ++ (closers double ++ .newline :: rest))) t) :
    ∃ tpath z v w, tpath.map Prod.fst = path ∧ normalizeKey z = .ok key ∧
      Runs (closeSelect double) v () w ∧ Reads (.newline :: rest) w ∧
      ∀ root, parseSelect root t = (do
        let (root,curtab) ← walkTabpath root [] tpath
        let selected ← selectLast double root curtab z
        closeSelect double
        return selected : Parser (Table × Path)) v := by
  have hopen : ∃ x y, Runs (nextToken true) t () x ∧ decide (x.tok = .LBRACKET) = double ∧
      Runs (optionally double (nextToken true)) x () y ∧
      Reads (lp ++ (closers double ++ .newline :: rest)) y := by
    cases double with
    | false =>
      have ht' : Reads (.header :: (lp ++ (closers false ++ .newline :: rest))) t := ht
      obtain ⟨x,hrun,hx⟩ := runs_nextToken_dotted ht' (undotted_path hp)
      have htok : x.tok = .STRING := by
        generalize hkeys : path ++ [key] = keys at hp
        cases hp with
        | last hkey => exact hx.tok
        | cons hkey h => exact hx.tok
      exact ⟨x,x,hrun,by rw [htok]; rfl,runs_pure,hx⟩
    | true =>
      have ht' : Reads (.header :: .header :: (lp ++ (closers true ++ .newline :: rest))) t := ht
      obtain ⟨x,hrun,hx⟩ := runs_nextToken_dotted ht' undotted_sign
      obtain ⟨y,hrun',hy⟩ := runs_nextToken_dotted hx (undotted_path hp)
      exact ⟨x,y,hrun,decide_eq_true hx.tok,hrun',hy⟩
  obtain ⟨x,y,hrun,hdouble,hrun',hy⟩ := hopen
  obtain ⟨ls,hclose⟩ : ∃ ls, closers double ++ .newline :: rest = .rbracket :: ls := by
    cases double <;> exact ⟨_,rfl⟩
  rw [hclose] at hy
  obtain ⟨tpath,v,hfill,hkeys,hnames,hv⟩ :=
    runs_fillTabpath hp hy maxPath (by simpa using hdepth) y.lineno []
  rw [← hclose] at hv
  obtain ⟨w,hrun'',hw⟩ := runs_closeSelect hv
  obtain ⟨before,⟨name,z⟩,rfl,hbefore,hname⟩ : ∃ before last, tpath = before ++ [last] ∧
      before.map Prod.fst = path ∧ last.1 = key := by
    obtain ⟨before,tail,rfl,hbefore,htail⟩ := List.map_eq_append_iff.mp hkeys
    obtain ⟨last,rest,rfl,hlast,hrest⟩ := List.map_eq_cons_iff.mp htail
    rw [List.map_eq_nil_iff.mp hrest]
    exact ⟨before,last,rfl,hbefore,hlast⟩
  have hz : normalizeKey z = .ok key := by
    rw [← hname]
    exact hnames (name,z) (by simp)
  refine ⟨before,z,v,w,hbefore,hz,hrun'',hw,fun root => ?_⟩
  have htok : ¬t.tok ≠ .LBRACKET := by
    cases double with
    | false => exact not_not.mpr ht.tok
    | true => exact not_not.mpr ht.tok
  rw [parseSelect,Runs.bind_eq runs_get,if_neg htok,hrun.bind_eq,Runs.bind_eq runs_get]
  simp only [hdouble]
  rw [hrun'.bind_eq,Runs.bind_eq runs_get,hfill.bind_eq]
  simp only [List.nil_append,List.getLast?_concat,List.dropLast_concat]

def Selects (double : Bool) (key : Bytes) (s s' : Table) (last : Step) : Prop :=
  ∀ (root : Table) (p : Path) (z v : Token), normalizeKey z = .ok key → root.find p = some s →
    Runs (selectLast double root p z) v (root.update (fun _ => s') p,p ++ [last]) v

theorem selects_table (hnew : some key ∉ s.keys) :
    Selects false key s { s with tab := s.tab ++ [Table.empty (some key) false] }
      (.tab s.tab.length) := by
  intro root p z v hz hfind
  have hcreate : createKeytableInTable s z =
      .ok ({ s with tab := s.tab ++ [Table.empty (some key) false] },s.tab.length) := by
    simp only [createKeytableInTable,hz,checkKey_of_not_mem hnew,bind,Except.bind]
    rfl
  refine (runs_pointer hfind).bind ?_
  simp only [hcreate,lift,pure_bind]
  exact runs_pure

theorem setArr_last (s : Table) (a a' : Arr) :
    setArr { s with arr := s.arr ++ [a] } s.arr.length a' = { s with arr := s.arr ++ [a'] } := by
  rw [setArr,List.set_append_right _ _ le_rfl,Nat.sub_self,List.set_cons_zero]

theorem selects_first (hnew : some key ∉ s.keys) :
    Selects true key s
      (setArr { s with arr := s.arr ++ [{ Arr.empty (some key) with kind := .table }] } s.arr.length
        { Arr.empty (some key) with kind := .table, tab := [Table.empty (some anon) false] })
      (.elem s.arr.length 0) := by
  intro root p z v hz hfind
  have hcreate : createKeyarrayInTable s z true =
      .ok ({ s with arr := s.arr ++ [Arr.empty (some key)] },some s.arr.length) := by
    simp only [createKeyarrayInTable,hz,checkKey_of_not_mem hnew,bind,Except.bind]
    rfl
  refine (runs_pointer hfind).bind ?_
  have hkind : (Arr.empty (some key)).setKind .table =
      { Arr.empty (some key) with kind := .table } := rfl
  simp only [hcreate,lift,pure_bind,pointer,List.getElem?_concat_length,hkind,ne_eq,
    not_true_eq_false,if_false,setArr_last]
  exact runs_pure

theorem selects_next {a : Arr} {i : ℕ} (hc : checkKey s key = some (.arr i))
    (ha : s.arr[i]? = some a) (hkind : a.kind = .table) :
    Selects true key s (setArr s i { a with tab := a.tab ++ [Table.empty (some anon) false] })
      (.elem i a.nelem) := by
  intro root p z v hz hfind
  have hcreate : createKeyarrayInTable s z true = .ok (s,some i) := by
    simp only [createKeyarrayInTable,hz,hc,bind,Except.bind]
    rfl
  refine (runs_pointer hfind).bind ?_
  simp only [hcreate,lift,pure_bind]
  refine (runs_pointer ha).bind ?_
  have hset : a.setKind .table = a := by rw [Arr.setKind,if_neg (by simp [hkind])]
  rw [hset,if_neg (not_not.mpr hkind)]
  exact runs_pure

theorem runs_parseSelect {s' : Table} {last : Step} (hp : PathWrites (path ++ [key]) lp)
    (hdepth : path.length < maxPath) (hlead : Leads root path p s)
    (hsel : Selects double key s s' last)
    (ht : Reads (openers double ++ (lp ++ (closers double ++ .newline :: rest))) t) :
    ∃ w, Runs (parseSelect root) t (root.update (fun _ => s') p,p ++ [last]) w ∧
      Reads (.newline :: rest) w := by
  obtain ⟨tpath,z,v,w,hkeys,hz,hclose,hw,hselect⟩ := parseSelect_reads hp hdepth ht
  have hwalk : Runs (walkTabpath root [] tpath) v (root,p) v := leads_walks hlead rfl hkeys
  refine ⟨w,?_,hw⟩
  rw [Runs,hselect root]
  exact hwalk.bind ((hsel root p z v hz hlead.find).bind (hclose.bind runs_pure))

end headers

def Yields (strtod : Bytes → Bool) (root : Table) (curtab : Path) (t : Token) (r : Table) : Prop :=
  ∃ fuel u, Runs (parseLoop strtod fuel root curtab) t r u

def Ends (rest : List Lexeme) : Prop := ∀ l ∈ rest.head?, l = .header

def Sections.Parses (strtod : Bytes → Bool) (path : List Bytes) (ls : List Lexeme)
    (ss : Sections) : Prop :=
  ∀ (root : Table) (p : Path) (s : Table) (curtab : Path) (t : Token) (rest : List Lexeme)
    (r : Table), Leads root path p s → (∀ k ∈ ss.names, some k ∉ s.keys) → Ends rest →
    Reads (ls ++ rest) t →
    (∀ curtab w, Reads rest w →
      Yields strtod (root.update (fun _ => ss.fill strtod s) p) curtab w r) →
    Yields strtod root curtab t r

def Tables.Parses (strtod : Bytes → Bool) (path : List Bytes) (key : Bytes) (ls : List Lexeme)
    (ts : Tables) : Prop :=
  ∀ (root : Table) (p : Path) (s : Table) (i : ℕ) (a : Arr) (curtab : Path) (t : Token)
    (rest : List Lexeme) (r : Table), Leads root path p s → checkKey s key = some (.arr i) →
    s.arr[i]? = some a → a.kind = .table → a.nelem = a.tab.length → Ends rest →
    Reads (ls ++ rest) t →
    (∀ curtab w, Reads rest w →
      Yields strtod (root.update (fun _ => setArr s i (ts.fill strtod a)) p) curtab w r) →
    Yields strtod root curtab t r

section lines
variable {strtod : Bytes → Bool} {root r s tab : Table} {p curtab : Path} {t : Token}
variable {ls rest : List Lexeme}

theorem ends_undotted (h : Ends rest) : Undotted rest := by
  intro v hv
  cases h _ hv

theorem update_same (h : root.find p = some tab) : root.update (fun _ => tab) p = root :=
  (update_congr (f := fun _ => tab) (g := id) h rfl).trans update_id

theorem lines_parse {es : Entries} (h : Lines es ls) (hv : es.WellFormed strtod)
    (hnodup : es.names.Nodup) (hfind : root.find p = some tab)
    (hnew : ∀ k ∈ es.names, some k ∉ tab.keys) (hrest : Undotted rest) (ht : Reads (ls ++ rest) t)
    (hnext : ∀ w, Reads rest w →
      Yields strtod (root.update (fun _ => es.fill strtod tab) p) p w r) :
    Yields strtod root p t r := by
  induction h generalizing root tab t with
  | nil n =>
    rw [Entries.fill,update_same hfind] at hnext
    exact runs_parseLoop_newlines ht hrest hnext
  | @cons key text v es ls ls' n hkey h hs ih =>
    rw [Entries.names,List.nodup_cons] at hnodup
    simp only [List.append_assoc,List.cons_append] at ht
    apply runs_parseLoop_newlines ht (undotted_key hkey)
    intro w hw
    apply runs_parseLoop_entry hkey h (value_parses h hv.1) hfind
      (hnew key (by simp [Entries.names])) hw
    intro x hx
    obtain ⟨y,heat,hy⟩ := runs_eatToken hx 1260
    refine ⟨y,hx.tok,heat,ih hv.2 hnodup.2 (update_find hfind) (fresh_addTo hnodup.1 hnew) hy ?_⟩
    rw [update_update]
    exact hnext

theorem parseLoop_header (ht : Reads (.header :: ls) t) (fuel : ℕ) :
    parseLoop strtod (fuel + 1) root curtab t = (do
      let (root,curtab) ← parseSelect root
      parseLoop strtod fuel root curtab : Parser Table) t := by
  have htok : t.tok = .LBRACKET := ht.tok
  rw [parseLoop,Runs.bind_eq runs_get,ht.notEof,if_neg Bool.false_ne_true,htok]

theorem yields_header {root' : Table} {curtab' : Path} {w : Token} (ht : Reads (.header :: ls) t)
    (hsel : Runs (parseSelect root) t (root',curtab') w) (h : Yields strtod root' curtab' w r) :
    Yields strtod root curtab t r := by
  obtain ⟨fuel,u,hrun⟩ := h
  refine ⟨fuel + 1,u,?_⟩
  rw [Runs,parseLoop_header ht]
  exact hsel.bind hrun

theorem yields_transfer {root' : Table} (ht : Reads (.header :: ls) t)
    (hsel : parseSelect root t = parseSelect root' t) (h : Yields strtod root' curtab t r) :
    Yields strtod root curtab t r := by
  obtain ⟨fuel,u,hrun⟩ := h
  cases fuel with
  | zero => cases hrun
  | succ fuel =>
    refine ⟨fuel + 1,u,?_⟩
    rw [Runs,parseLoop_header ht,bind_eq_of_eq hsel,← parseLoop_header ht]
    exact hrun

end lines

section sections
variable {strtod : Bytes → Bool} {path : List Bytes} {key : Bytes} {lp lb ls ls' rest : List Lexeme}
variable {es : Entries} {sub ss : Sections} {ts : Tables}

theorem ends_append (h : Ends rest) (hls : Ends ls) : Ends (ls ++ rest) := by
  cases ls with
  | nil => exact h
  | cons l ls => exact hls

theorem ends_header {l : List Lexeme} : Ends (.header :: l) := by
  intro l hl
  exact (Option.some.inj hl).symm

mutual

theorem sections_end {path : List Bytes} {ss : Sections} {ls : List Lexeme}
    (h : ss.Writes path ls) : Ends ls := by
  cases h with
  | nil => exact fun l hl => by cases hl
  | table hp hb h hs => exact ends_header
  | implied h hs => exact ends_append (sections_end hs) (sections_end h)
  | array h hs => exact ends_append (sections_end hs) (tables_end h)

theorem tables_end {path : List Bytes} {ts : Tables} {ls : List Lexeme}
    (h : ts.Writes path ls) : Ends ls := by
  cases h with
  | nil => exact fun l hl => by cases hl
  | cons hp hb h hs => exact ends_header

end

theorem undotted_lines (h : Lines es lb) (hrest : Undotted rest) : Undotted (lb ++ rest) := by
  cases h with
  | nil n => exact undotted_newlines n hrest
  | cons n hkey h hs =>
    rw [List.append_assoc]
    exact undotted_newlines n (undotted_key hkey)

theorem header_parses {double : Bool} {root s s' e r : Table} {last : Step} {p curtab : Path}
    {t : Token} (hp : PathWrites (path ++ [key]) lp) (hdepth : path.length < maxPath)
    (hlead : Leads root path p s) (hsel : Selects double key s s' last) (hkey : s'.key = s.key)
    (hstep : Leads s' [key] [last] e) (hempty : e.keys = []) (hb : Lines es lb)
    (hes : es.WellFormed strtod) (hnames : (es.names ++ sub.names).Nodup)
    (hsub : sub.Parses strtod (path ++ [key]) ls) (hls : Ends ls) (hrest : Ends rest)
    (ht : Reads (openers double ++
      (lp ++ (closers double ++ .newline :: (lb ++ (ls ++ rest))))) t)
    (hnext : ∀ curtab w, Reads rest w → Yields strtod
      (root.update (fun _ => s'.update (fun _ => sub.fill strtod (es.fill strtod e)) [last]) p)
      curtab w r) :
    Yields strtod root curtab t r := by
  obtain ⟨w,hrun,hw⟩ := runs_parseSelect hp hdepth hlead hsel ht
  have hnodup := (List.nodup_append.mp hnames).1
  have hlead' : Leads (root.update (fun _ => s') p) (path ++ [key]) (p ++ [last]) e :=
    (hlead.update hkey).append hstep
  have hbody : Yields strtod (root.update (fun _ => s') p) (p ++ [last]) w r := by
    have hundotted := ends_undotted (ends_append hrest hls)
    apply runs_parseLoop_newline hw (undotted_lines hb hundotted)
    intro x hx
    apply lines_parse hb hes hnodup hlead'.find (by simp [hempty]) hundotted hx
    intro y hy
    have hfresh : ∀ k ∈ sub.names, some k ∉ (es.fill strtod e).keys := fresh_fill hempty hnames
    have hlead'' := hlead'.update (f := fun _ => es.fill strtod e) (Entries.fill_key es e)
    apply hsub _ _ _ _ _ _ _ hlead'' hfresh hrest hy
    intro curtab z hz
    have htree : ((root.update (fun _ => s') p).update (fun _ => es.fill strtod e)
        (p ++ [last])).update (fun _ => sub.fill strtod (es.fill strtod e)) (p ++ [last]) =
        root.update (fun _ => s'.update (fun _ => sub.fill strtod (es.fill strtod e)) [last]) p := by
      rw [update_update,update_append,update_update]
    rw [htree]
    exact hnext curtab z hz
  cases double with
  | false => exact yields_header ht hrun hbody
  | true => exact yields_header ht hrun hbody

theorem leads_pushTab {s e : Table} (hnew : some key ∉ s.keys) (he : e.key = some key) :
    Leads { s with tab := s.tab ++ [e] } [key] [.tab s.tab.length] e :=
  .tab (checkKey_pushTab hnew he) List.getElem?_concat_length (.here e)

theorem update_pushTab {s e u : Table} :
    Table.update (fun _ => u) [.tab s.tab.length] { s with tab := s.tab ++ [e] } =
      { s with tab := s.tab ++ [u] } := by
  rw [Table.update,modify_of_getElem? List.getElem?_concat_length,
    List.set_append_right _ _ le_rfl,Nat.sub_self,List.set_cons_zero]
  rfl

theorem sections_nil : Sections.nil.Parses strtod path [] := by
  intro root p s curtab t rest r hlead hnew hrest ht hnext
  rw [Sections.fill,update_same hlead.find] at hnext
  exact hnext curtab t ht

theorem sections_behind {root s s' r : Table} {p : Path} (hkey : key ∉ ss.names)
    (hnew : ∀ k ∈ ss.names, some k ∉ s.keys) (hs' : s'.key = s.key)
    (hkeys : ∀ k, k ∈ s'.keys ↔ k = some key ∨ k ∈ s.keys)
    (hss : ss.Parses strtod path ls) (hlead : Leads root path p s) (hrest : Ends rest)
    (hnext : ∀ curtab w, Reads rest w →
      Yields strtod (root.update (fun _ => ss.fill strtod s') p) curtab w r) :
    ∀ curtab w, Reads (ls ++ rest) w →
      Yields strtod (root.update (fun _ => s') p) curtab w r := by
  intro curtab w hw
  have hfresh : ∀ k ∈ ss.names, some k ∉ s'.keys := by
    intro k hk
    rw [hkeys,not_or]
    refine ⟨?_,hnew k hk⟩
    rintro ⟨⟩
    exact hkey hk
  apply hss _ _ _ _ _ _ _ (hlead.update hs') hfresh hrest hw
  rw [update_update]
  exact hnext

theorem sections_table (hp : PathWrites (path ++ [key]) lp) (hdepth : path.length < maxPath)
    (hb : Lines es lb) (hes : es.WellFormed strtod) (hnames : (es.names ++ sub.names).Nodup)
    (hsub : sub.Parses strtod (path ++ [key]) ls) (hls : Ends ls) (hkey : key ∉ ss.names)
    (hss : ss.Parses strtod path ls') (hls' : Ends ls') :
    (Sections.table key es sub ss).Parses strtod path
      (.header :: (lp ++ .rbracket :: .newline :: (lb ++ (ls ++ ls')))) := by
  intro root p s curtab t rest r hlead hnew hrest ht hnext
  rw [Sections.names,List.forall_mem_cons] at hnew
  have hstep := leads_pushTab (e := Table.empty (some key) false) hnew.1 rfl
  simp only [List.cons_append,List.append_assoc] at ht
  apply header_parses hp hdepth hlead (selects_table hnew.1) rfl hstep rfl hb hes hnames hsub hls
    (ends_append hrest hls') ht
  rw [update_pushTab]
  have hu : (sub.fill strtod (es.fill strtod (Table.empty (some key) false))).key = some key := by
    rw [sections_key,Entries.fill_key]
    rfl
  have hkeys := fun k => hu ▸ pushTab_keys (s := s) k
  exact sections_behind hkey hnew.2 rfl hkeys hss hlead hrest hnext

theorem walk_implied {root s : Table} {p : Path} {tpath : List (Bytes × Token)}
    {more : List Bytes} {v : Token} (hlead : Leads root path p s) (hnew : some key ∉ s.keys)
    (hkeys : tpath.map Prod.fst = path ++ key :: more) :
    walkTabpath root [] tpath v = walkTabpath
      (root.update (fun _ => { s with tab := s.tab ++ [Table.empty (some key) true] }) p) [] tpath
      v := by
  obtain ⟨before,_,rfl,hbefore,hkeys⟩ := List.map_eq_append_iff.mp hkeys
  obtain ⟨⟨name,tok⟩,after,rfl,hname,hafter⟩ := List.map_eq_cons_iff.mp hkeys
  obtain rfl : name = key := hname
  have hwalk : Runs (walkTabpath root [] before) v (root,p) v := leads_walks hlead rfl hbefore
  have hlead' := (hlead.update (f := fun _ => { s with tab := s.tab ++
    [Table.empty (some name) true] }) rfl).append (leads_pushTab hnew rfl)
  have hwalk' : Runs (walkTabpath _ [] (before ++ [(name,tok)])) v (_,p ++ [.tab s.tab.length]) v :=
    leads_walks hlead' rfl (by rw [List.map_append,hbefore]; rfl)
  have hstep : Runs (walkStep root p name tok) v
      (root.update (fun _ => { s with tab := s.tab ++ [Table.empty (some name) true] }) p,
        p ++ [.tab s.tab.length]) v := by
    refine (runs_pointer hlead.find).bind ?_
    rw [checkKey_of_not_mem hnew]
    have htree := update_congr (f := fun t => { t with tab := t.tab ++
      [Table.empty (some name) true] }) (g := fun _ => { s with tab := s.tab ++
      [Table.empty (some name) true] }) hlead.find rfl
    rw [← htree]
    exact runs_pure
  rw [walkTabpath_append,hwalk.bind_eq,List.append_cons before (name,tok) after,walkTabpath_append,
    hwalk'.bind_eq]
  exact hstep.bind_eq

def Heads (path : List Bytes) (ls : List Lexeme) : Prop :=
  ∃ double before key lp ls', PathWrites (path ++ before ++ [key]) lp ∧
    (path ++ before).length < maxPath ∧
    ls = openers double ++ (lp ++ (closers double ++ .newline :: ls'))

theorem Heads.append (h : Heads path ls) : Heads path (ls ++ ls') := by
  obtain ⟨double,before,key,lp,tail,hp,hlen,rfl⟩ := h
  exact ⟨double,before,key,lp,tail ++ ls',hp,hlen,by simp⟩

theorem Heads.below (h : Heads (path ++ [key]) ls) : Heads path ls := by
  obtain ⟨double,before,name,lp,tail,hp,hlen,rfl⟩ := h
  exact ⟨double,key :: before,name,lp,tail,by simpa using hp,by simpa using hlen,rfl⟩

theorem sections_implied (hheads : Heads (path ++ [key]) ls)
    (hsub : sub.Parses strtod (path ++ [key]) ls) (hkey : key ∉ ss.names)
    (hss : ss.Parses strtod path ls') (hls' : Ends ls') :
    (Sections.implied key sub ss).Parses strtod path (ls ++ ls') := by
  intro root p s curtab t rest r hlead hnew hrest ht hnext
  rw [Sections.names,List.forall_mem_cons] at hnew
  rw [List.append_assoc] at ht
  have hlead' := (hlead.update (f := fun _ => { s with tab := s.tab ++
    [Table.empty (some key) true] }) rfl).append (leads_pushTab hnew.1 rfl)
  have hu : (sub.fill strtod (Table.empty (some key) true)).key = some key := by
    rw [sections_key]
    rfl
  have hbelow : Yields strtod
      (root.update (fun _ => { s with tab := s.tab ++ [Table.empty (some key) true] }) p) curtab t r := by
    apply hsub _ _ _ _ _ _ _ hlead' (fun k hk hmem => by cases hmem) (ends_append hrest hls') ht
    rw [update_append,update_update,update_pushTab]
    have hkeys := fun k => hu ▸ pushTab_keys (s := s) k
    exact sections_behind hkey hnew.2 rfl hkeys hss hlead hrest hnext
  obtain ⟨double,before,name,lp,tail,hp,hlen,rfl⟩ := hheads
  simp only [List.append_assoc,List.cons_append] at ht
  obtain ⟨tpath,z,v,w,hkeys,-,-,-,hselect⟩ :=
    parseSelect_reads (by simpa only [List.append_assoc] using hp) hlen ht
  rw [List.append_assoc] at hkeys
  have hsel : parseSelect root t = parseSelect
      (root.update (fun _ => { s with tab := s.tab ++ [Table.empty (some key) true] }) p) t := by
    rw [hselect,hselect]
    exact bind_eq_of_eq (walk_implied hlead hnew.1 hkeys)
  cases double with
  | false => exact yields_transfer ht hsel hbelow
  | true => exact yields_transfer ht hsel hbelow

theorem checkKey_setArr {s : Table} {i : ℕ} {a a' : Arr} (ha : s.arr[i]? = some a)
    (hkey : a'.key = a.key) : checkKey (setArr s i a') key = checkKey s key :=
  checkKey_congr rfl (map_set_same ha hkey) rfl

theorem setArr_same {s : Table} {i : ℕ} {a : Arr} (ha : s.arr[i]? = some a) : setArr s i a = s := by
  obtain ⟨hi,rfl⟩ := List.getElem?_eq_some_iff.mp ha
  cases s
  rw [setArr,List.set_getElem_self]

theorem getElem?_setArr {s : Table} {i : ℕ} {a a' : Arr} (ha : s.arr[i]? = some a) :
    (setArr s i a').arr[i]? = some a' :=
  List.getElem?_set_self (List.getElem?_eq_some_iff.mp ha).1

theorem setArr_setArr {s : Table} {i : ℕ} {a a' : Arr} :
    setArr (setArr s i a) i a' = setArr s i a' := by
  simp only [setArr,List.set_set]

theorem pushed_nelem {a : Arr} {e : Table} :
    ({ a with tab := a.tab ++ [e] } : Arr).nelem = a.nelem + 1 := by
  simp only [Arr.nelem,List.length_append,List.length_singleton]
  omega

theorem update_pushElem {s e u : Table} {i : ℕ} {a : Arr} (ha : s.arr[i]? = some a)
    (hn : a.nelem = a.tab.length) :
    Table.update (fun _ => u) [.elem i a.nelem] (setArr s i { a with tab := a.tab ++ [e] }) =
      setArr s i { a with tab := a.tab ++ [u] } := by
  have hlast : (a.tab ++ [e])[a.nelem]? = some e := by rw [hn,List.getElem?_concat_length]
  rw [Table.update,modify_of_getElem? (getElem?_setArr ha)]
  change setArr (setArr s i _) i _ = _
  rw [setArr_setArr,modify_of_getElem? hlast,hn,List.set_append_right _ _ le_rfl,Nat.sub_self,
    List.set_cons_zero]
  rfl

theorem tables_turn {root s s' r : Table} {p curtab : Path} {t : Token} {i : ℕ} {a : Arr}
    (hp : PathWrites (path ++ [key]) lp) (hdepth : path.length < maxPath)
    (hb : Lines es lb) (hes : es.WellFormed strtod) (hnames : (es.names ++ sub.names).Nodup)
    (hsub : sub.Parses strtod (path ++ [key]) ls) (hls : Ends ls)
    (hts : ts.Parses strtod path key ls') (hls' : Ends ls') (hlead : Leads root path p s)
    (hsel : Selects true key s
      (setArr s' i { a with tab := a.tab ++ [Table.empty (some anon) false] }) (.elem i a.nelem))
    (hkey : s'.key = s.key) (hc : checkKey s' key = some (.arr i)) (ha : s'.arr[i]? = some a)
    (hkind : a.kind = .table) (hn : a.nelem = a.tab.length) (hrest : Ends rest)
    (ht : Reads (openers true ++ (lp ++ (closers true ++ .newline ::
      (lb ++ (ls ++ (ls' ++ rest)))))) t)
    (hnext : ∀ curtab w, Reads rest w → Yields strtod
      (root.update (fun _ => setArr s' i ((Tables.cons es sub ts).fill strtod a)) p) curtab w r) :
    Yields strtod root curtab t r := by
  have hcheck (e : Table) : checkKey (setArr s' i { a with tab := a.tab ++ [e] }) key =
      some (.arr i) := by
    rw [checkKey_setArr ha,hc]
    rfl
  have hstep (e : Table) : Leads (setArr s' i { a with tab := a.tab ++ [e] }) [key]
      [.elem i a.nelem] e :=
    .elem (hcheck e) (getElem?_setArr ha) hkind pushed_nelem
      (by rw [hn,List.getElem?_concat_length]) (.here e)
  apply header_parses hp hdepth hlead hsel hkey (hstep _) rfl hb hes hnames hsub hls
    (ends_append hrest hls') ht
  intro curtab w hw
  rw [update_pushElem ha hn]
  rw [Tables.fill] at hnext
  generalize sub.fill strtod (es.fill strtod (Table.empty (some anon) false)) = u at hnext ⊢
  have hn' : ({ a with tab := a.tab ++ [u] } : Arr).nelem =
      ({ a with tab := a.tab ++ [u] } : Arr).tab.length := by
    rw [pushed_nelem,hn,List.length_append,List.length_singleton]
  apply hts _ p _ i { a with tab := a.tab ++ [u] } _ _ _ _ (hlead.update hkey) (hcheck u)
    (getElem?_setArr ha) hkind hn' hrest hw
  rw [update_update,setArr_setArr]
  exact hnext

theorem tables_nil : Tables.nil.Parses strtod path key [] := by
  intro root p s i a curtab t rest r hlead hc ha hkind hn hrest ht hnext
  rw [Tables.fill,setArr_same ha,update_same hlead.find] at hnext
  exact hnext curtab t ht

theorem tables_cons (hp : PathWrites (path ++ [key]) lp) (hdepth : path.length < maxPath)
    (hb : Lines es lb) (hes : es.WellFormed strtod) (hnames : (es.names ++ sub.names).Nodup)
    (hsub : sub.Parses strtod (path ++ [key]) ls) (hls : Ends ls)
    (hts : ts.Parses strtod path key ls') (hls' : Ends ls') :
    (Tables.cons es sub ts).Parses strtod path key
      (.header :: .header ::
        (lp ++ .rbracket :: .rbracket :: .newline :: (lb ++ (ls ++ ls')))) := by
  intro root p s i a curtab t rest r hlead hc ha hkind hn hrest ht hnext
  simp only [List.cons_append,List.append_assoc] at ht
  exact tables_turn hp hdepth hb hes hnames hsub hls hts hls' hlead
    (selects_next hc ha hkind) rfl hc ha hkind hn hrest ht hnext

theorem sections_array (hp : PathWrites (path ++ [key]) lp) (hdepth : path.length < maxPath)
    (hb : Lines es lb) (hes : es.WellFormed strtod) (hnames : (es.names ++ sub.names).Nodup)
    (hsub : sub.Parses strtod (path ++ [key]) ls) (hls : Ends ls) {lt : List Lexeme}
    (hts : ts.Parses strtod path key lt) (hlt : Ends lt) (hkey : key ∉ ss.names)
    (hss : ss.Parses strtod path ls') (hls' : Ends ls') :
    (Sections.array key (.cons es sub ts) ss).Parses strtod path
      ((.header :: .header ::
        (lp ++ .rbracket :: .rbracket :: .newline :: (lb ++ (ls ++ lt)))) ++ ls') := by
  intro root p s curtab t rest r hlead hnew hrest ht hnext
  rw [Sections.names,List.forall_mem_cons] at hnew
  simp only [List.cons_append,List.append_assoc] at ht
  have hsame : ({ s with arr := s.arr ++
      [{ Arr.empty (some key) with kind := .table }] } : Table).key = s.key := rfl
  apply tables_turn hp hdepth hb hes hnames hsub hls hts hlt hlead
    (selects_first hnew.1) hsame (checkKey_pushArr hnew.1 rfl) List.getElem?_concat_length rfl rfl
    (ends_append hrest hls') ht
  rw [setArr_last]
  have ha : ((Tables.cons es sub ts).fill strtod
      { Arr.empty (some key) with kind := .table }).key = some key := by
    rw [tables_key]
    rfl
  have hkeys := fun k => ha ▸ pushArr_keys (s := s) k
  exact sections_behind hkey hnew.2 rfl hkeys hss hlead hrest hnext

theorem sections_heads {path : List Bytes} {ss : Sections} {ls : List Lexeme}
    (h : ss.Writes path ls) (hne : ss ≠ .nil) (hv : ss.WellFormed strtod)
    (hdepth : path.length + ss.depth ≤ maxPath) : Heads path ls := by
  cases h with
  | nil => exact absurd rfl hne
  | @table _ key _ _ _ lp _ _ _ hp hb h hs =>
    rw [Sections.depth] at hdepth
    exact ⟨false,[],key,lp,_,by simpa using hp,by simp; omega,rfl⟩
  | implied h hs =>
    rw [Sections.depth] at hdepth
    exact (sections_heads h hv.1 hv.2.2.1 (by simp; omega)).below.append
  | array h hs =>
    rw [Sections.depth] at hdepth
    cases h with
    | nil => exact absurd rfl hv.1
    | cons hp hb h hts =>
      exact Heads.append ⟨true,[],_,_,_,by simpa using hp,by simp; omega,rfl⟩

mutual

theorem sections_parse {path : List Bytes} {ss : Sections} {ls : List Lexeme}
    (h : ss.Writes path ls) (hv : ss.WellFormed strtod) (hnodup : ss.names.Nodup)
    (hdepth : path.length + ss.depth ≤ maxPath) : ss.Parses strtod path ls := by
  cases h with
  | nil => exact sections_nil
  | table hp hb h hs =>
    rw [Sections.depth] at hdepth
    rw [Sections.names,List.nodup_cons] at hnodup
    have hsub := sections_parse h hv.2.2.1 (List.nodup_append.mp hv.2.1).2.1 (by simp; omega)
    have hss := sections_parse hs hv.2.2.2 hnodup.2 (by omega)
    exact sections_table hp (by omega) hb hv.1 hv.2.1 hsub (sections_end h) hnodup.1 hss
      (sections_end hs)
  | implied h hs =>
    rw [Sections.depth] at hdepth
    rw [Sections.names,List.nodup_cons] at hnodup
    have hsub := sections_parse h hv.2.2.1 hv.2.1 (by simp; omega)
    have hss := sections_parse hs hv.2.2.2 hnodup.2 (by omega)
    have hheads := sections_heads h hv.1 hv.2.2.1 (by simp; omega)
    exact sections_implied hheads hsub hnodup.1 hss (sections_end hs)
  | array h hs =>
    rw [Sections.depth] at hdepth
    rw [Sections.names,List.nodup_cons] at hnodup
    have hss := sections_parse hs hv.2.2 hnodup.2 (by omega)
    cases h with
    | nil => exact absurd rfl hv.1
    | cons hp hb h hts =>
      rw [Tables.depth] at hdepth
      have hsub := sections_parse h hv.2.1.2.2.1 (List.nodup_append.mp hv.2.1.2.1).2.1
        (by simp; omega)
      have htables := tables_parse hts hv.2.1.2.2.2 (by simp; omega)
      exact sections_array hp (by omega) hb hv.2.1.1 hv.2.1.2.1 hsub (sections_end h) htables
        (tables_end hts) hnodup.1 hss (sections_end hs)

theorem tables_parse {path : List Bytes} {key : Bytes} {ts : Tables} {ls : List Lexeme}
    (h : ts.Writes (path ++ [key]) ls) (hv : ts.WellFormed strtod)
    (hdepth : (path ++ [key]).length + ts.depth ≤ maxPath) : ts.Parses strtod path key ls := by
  cases h with
  | nil => exact tables_nil
  | cons hp hb h hts =>
    rw [Tables.depth] at hdepth
    have hsub := sections_parse h hv.2.2.1 (List.nodup_append.mp hv.2.1).2.1 (by omega)
    have htables := tables_parse hts hv.2.2.2 (by omega)
    exact tables_cons hp (by simp at hdepth; omega) hb hv.1 hv.2.1 hsub (sections_end h) htables
      (tables_end hts)

end

theorem document_yields {es : Entries} {ss : Sections} {ls ls' : List Lexeme} {t : Token}
    (hes : es.WellFormed strtod) (hss : ss.WellFormed strtod) (hnames : (es.names ++ ss.names).Nodup)
    (hdepth : ss.depth ≤ maxPath) (hlines : Lines es ls) (hwrites : ss.Writes [] ls')
    (ht : Reads (ls ++ ls') t) :
    Yields strtod (Table.empty none false) [] t
      (ss.fill strtod (es.fill strtod (Table.empty none false))) := by
  obtain ⟨hnodup,hnodup',-⟩ := List.nodup_append.mp hnames
  have hempty : (Table.empty none false).keys = [] := rfl
  apply lines_parse hlines hes hnodup (rfl : (Table.empty none false).find [] = _)
    (by simp [hempty]) (ends_undotted (sections_end hwrites)) ht
  intro w hw
  have hfresh : ∀ k ∈ ss.names, some k ∉ (es.fill strtod (Table.empty none false)).keys :=
    fresh_fill hempty hnames
  have hsections := sections_parse hwrites hss hnodup' (by simpa using hdepth)
  rw [← List.append_nil ls'] at hw
  apply hsections _ [] _ [] w [] _ (.here _) hfresh (fun l hl => by cases hl) hw
  intro curtab x hx
  exact ⟨1,x,runs_parseLoop_eof hx⟩

end sections

theorem tomlParse_sections (strtod : Bytes → Bool) {es : Entries} {ss : Sections}
    {ls ls' : List Lexeme} {src : Bytes} (hes : es.WellFormed strtod) (hss : ss.WellFormed strtod)
    (hnames : (es.names ++ ss.names).Nodup) (hdepth : ss.depth ≤ maxPath) (hlines : Lines es ls)
    (hwrites : ss.Writes [] ls') (hspells : Spells (ls ++ ls') (cString src)) :
    tomlParse strtod (enoughFuel src) src =
      .ok (ss.fill strtod (es.fill strtod (Table.empty none false))) := by
  apply tomlParse_loop (undotted_lines hlines (ends_undotted (sections_end hwrites))) hspells
  intro t ht
  exact document_yields hes hss hnames hdepth hlines hwrites ht

section witness

def one : Entries := .cons (cstr "v") (.raw (cstr "1")) .nil

def treeDoc : Sections :=
  .implied (cstr "a") (.table (cstr "b") one .nil .nil)
    (.array (cstr "c") (.cons .nil .nil (.cons one (.table (cstr "d") .nil .nil .nil) .nil)) .nil)

def treeLayout : List (Bytes × Lexeme) :=
  [([],.header),([],.part (cstr "a")),([],.dot),([space],.part (dquote :: cstr "b" ++ [dquote])),
    ([],.rbracket),(cstr " # below a",.newline),([],.str (cstr "v")),([],.equal),([],.str (cstr "1")),
    ([],.newline),([],.header),([],.header),([],.part (cstr "c")),([],.rbracket),([],.rbracket),
    ([],.newline),([],.header),([],.header),([],.part (cstr "c")),([],.rbracket),([],.rbracket),
    ([],.newline),([],.str (cstr "v")),([space],.equal),([space],.str (cstr "1")),([],.newline),
    ([],.header),([],.part (cstr "c")),([],.dot),([],.part (cstr "d")),([],.rbracket),([],.newline)]

theorem one_lines : Lines one [.str (cstr "v"),.equal,.str (cstr "1"),.newline] :=
  .cons 0 ⟨by decide,by decide⟩ (.raw _) (.nil 0)

theorem one_wellFormed : one.WellFormed digitsOnly := ⟨trivial,trivial⟩

theorem treeDoc_writes : treeDoc.Writes [] (treeLayout.map Prod.snd) := by
  have ha : Names (cstr "a") (cstr "a") := ⟨by decide,by decide⟩
  have hb : Names (cstr "b") (dquote :: cstr "b" ++ [dquote]) := ⟨by decide,by decide⟩
  have hc : Names (cstr "c") (cstr "c") := ⟨by decide,by decide⟩
  have hd : Names (cstr "d") (cstr "d") := ⟨by decide,by decide⟩
  have htable := Sections.Writes.table (.cons ha (.last hb)) one_lines (.nil _) (.nil [cstr "a"])
  have hbelow := Sections.Writes.table (.cons hc (.last hd)) (.nil 0) (.nil _) (.nil [cstr "c"])
  have htables := Tables.Writes.cons (.last hc) (.nil 0) (.nil _)
    (.cons (.last hc) one_lines hbelow (.nil _))
  exact .implied htable (.array htables (.nil []))

theorem treeDoc_wellFormed : treeDoc.WellFormed digitsOnly :=
  ⟨by simp,by decide,⟨one_wellFormed,by decide,trivial,trivial⟩,by simp,
    ⟨trivial,by decide,trivial,one_wellFormed,by decide,⟨trivial,by decide,trivial,trivial⟩,trivial⟩,
    trivial⟩

theorem treeLayout_spells :
    Spells (treeLayout.map Prod.snd) (cString (layOut [] treeLayout)) := by
  have hplain : cString (layOut [] treeLayout) = layOut [] treeLayout := by decide +kernel
  rw [hplain]
  exact spells_layOut (by decide +kernel)

theorem tomlParse_sections_tree :
    tomlParse digitsOnly (enoughFuel (layOut [] treeLayout)) (layOut [] treeLayout) =
      .ok (treeDoc.fill digitsOnly (Table.empty none false)) := by
  have hempty : Entries.nil.WellFormed digitsOnly := trivial
  exact tomlParse_sections digitsOnly hempty treeDoc_wellFormed (by decide) (by decide) (.nil 0)
    treeDoc_writes treeLayout_spells

end witness

end Toml
