import KvmInfo.Toml.Written

namespace Toml
open Exec Caps

section loops
variable {strtod : Bytes → Bool} {ls rest : List Lexeme} {t : Token} {a : Arr} {v : Value}

theorem skipNewlines_unterminated {n : ℕ} (ht : Reads (newlines n) t) (fuel : ℕ) :
    Faults (skipNewlines fuel) t .outOfFuel := by
  induction fuel generalizing n t with
  | zero => rfl
  | succ fuel ih =>
    cases n with
    | zero =>
      obtain ⟨u,hrun,hu⟩ := runs_nextToken_eof ht false
      have htok : t.tok = .NEWLINE := by
        cases ht with
        | eof lineno => rfl
      have hu' : Reads (newlines 0) u := hu
      exact faults_if_pos htok (hrun.bind_faults (ih hu'))
    | succ n =>
      obtain ⟨u,hrun,hu⟩ := runs_nextToken_plain ht rfl
      exact faults_if_pos (Reads.tok ht) (hrun.bind_faults (ih hu))

theorem arrayLoop_stuck {n : ℕ} (hw : v.Writes ls) (hp : v.Parses strtod ls)
    (ha : a.Accepts (v.sort strtod)) (ht : Reads (newlines n ++ (ls ++ rest)) t)
    (h : ∀ w fuel, Reads rest w → Faults (do
      skipNewlines fuel
      if (← get).tok = .COMMA then do
        eatToken .COMMA 907
        parseArrayLoop strtod fuel (v.pushTo strtod a)
      else return v.pushTo strtod a) w .outOfFuel) (fuel : ℕ) :
    Faults (parseArrayLoop strtod fuel a) t .outOfFuel := by
  obtain ⟨first,ls',rfl,hfirst,hclose⟩ := writes_starts hw
  rw [List.cons_append] at ht
  obtain ⟨x,hskip,hx⟩ := runs_skipNewlines ht hfirst
  obtain ⟨felem,y,helem,hy⟩ := element_parses hw hp ha (t := x) hx
  have htok : x.tok ≠ .RBRACKET := by
    rw [hx.tok]
    cases first <;> simp_all [Lexeme.tok]
  cases fuel with
  | zero => rfl
  | succ fuel =>
    rw [parseArrayLoop]
    refine faults_bind_of (faults_or_runs skipNewlines_approx hskip fuel) (faults_if_neg htok ?_)
    exact faults_bind_of (faults_or_runs (g := fun n => parseElement strtod n a)
      (fun n => (parser_approx strtod n).element a) helem fuel) (h y fuel hy)

theorem values_unterminated {vs : Values} {ls : List Lexeme} {a : Arr} {t : Token}
    (h : vs.Writes ls) (hv : vs.WellFormed strtod) {s : Kind × Option ValType}
    (hof : vs.Of strtod s) (ha : a.Accepts s) {n : ℕ} (ht : Reads (newlines n ++ ls) t) (fuel : ℕ) :
    Faults (parseArrayLoop strtod fuel a) t .outOfFuel := by
  cases h with
  | nil =>
    rw [List.append_nil] at ht
    cases fuel with
    | zero => rfl
    | succ fuel =>
      rw [parseArrayLoop]
      exact (skipNewlines_unterminated ht fuel).bind
  | last k h =>
    rw [← hof.1] at ha
    exact arrayLoop_stuck h (value_parses h hv.1) ha ht
      (fun w fuel hw => (skipNewlines_unterminated hw fuel).bind) fuel
  | cons k m h hs =>
    rw [← hof.1] at ha
    refine arrayLoop_stuck h (value_parses h hv.1) ha ht (fun w fuel hw => ?_) fuel
    obtain ⟨x,hskip,hx⟩ := runs_skipNewlines hw (by simp)
    obtain ⟨y,heat,hy⟩ := runs_eatToken hx 907
    refine faults_bind_of (faults_or_runs skipNewlines_approx hskip fuel) ?_
    refine faults_if_pos hx.tok (heat.bind_faults ?_)
    have hof' := hof.2
    rw [← hof.1] at hof'
    exact values_unterminated hs hv.2 hof' pushTo_accepts hy fuel

end loops

inductive WritesOpen : Entries → List Lexeme → Prop where
  | last {key text : Bytes} {vs : Values} {ls : List Lexeme} (n k : ℕ) (hkey : Names key text)
      (h : vs.Writes ls) :
      WritesOpen (.cons key (.array vs) .nil)
        (newlines n ++ .str text :: .equal :: .lbracket :: (newlines k ++ ls))
  | cons {key text : Bytes} {v : Value} {es : Entries} {ls ls' : List Lexeme} (n : ℕ)
      (hkey : Names key text) (h : v.Writes ls) (hs : WritesOpen es ls') :
      WritesOpen (.cons key v es) (newlines n ++ .str text :: .equal :: (ls ++ .newline :: ls'))

section files
variable {strtod : Bytes → Bool}

theorem undotted_open {es : Entries} {ls : List Lexeme} (h : WritesOpen es ls) : Undotted ls := by
  cases h with
  | last n k hkey h => exact undotted_newlines n (undotted_key hkey)
  | cons n hkey h hs => exact undotted_newlines n (undotted_key hkey)

theorem parseLoop_stuck_newlines {ls : List Lexeme} {t : Token} {root : Table} {n : ℕ}
    (ht : Reads (newlines n ++ ls) t) (hls : Undotted ls)
    (h : ∀ w fuel, Reads ls w → Faults (parseLoop strtod fuel root []) w .outOfFuel) (fuel : ℕ) :
    Faults (parseLoop strtod fuel root []) t .outOfFuel := by
  induction n generalizing t fuel with
  | zero => exact h t fuel ht
  | succ n ih =>
    cases fuel with
    | zero => rfl
    | succ fuel =>
      have ht' : Reads (.newline :: (newlines n ++ ls)) t := ht
      obtain ⟨w,hrun,hw⟩ := runs_nextToken_dotted ht' (undotted_newlines n hls)
      have htok : t.tok = .NEWLINE := ht'.tok
      refine runs_get.bind_faults ?_
      rw [ht'.notEof,if_neg Bool.false_ne_true,htok]
      exact hrun.bind_faults (ih hw fuel)

theorem keyval_unterminated {key text : Bytes} {vs : Values} {ls : List Lexeme} {n : ℕ} {t : Token}
    {root : Table} (hkey : Names key text) (h : vs.Writes ls)
    (hv : (Value.array vs).WellFormed strtod) (hnew : some key ∉ root.keys)
    (ht : Reads (.str text :: .equal :: .lbracket :: (newlines n ++ ls)) t) (fuel : ℕ) :
    Faults (parseKeyval strtod fuel root) t .outOfFuel := by
  have hnorm := reads_key hkey ht
  have hcheck := checkKey_of_not_mem hnew
  obtain ⟨x,heat,hx⟩ := runs_eatToken ht 937
  obtain ⟨y,heat',hy⟩ := runs_eatToken hx 943
  obtain ⟨z,heat'',hz⟩ := runs_eatToken hy 824
  obtain ⟨⟨s,hof⟩,hvs⟩ := hv
  have hcreate : createKeyarrayInTable root t false =
      .ok ({ root with arr := root.arr ++ [Arr.empty (some key)] },some root.arr.length) := by
    simp only [createKeyarrayInTable,hnorm,hcheck,bind,Except.bind]
    rfl
  have hstr : ¬t.tok ≠ .STRING := not_not.mpr ht.tok
  have htok : y.tok = .LBRACKET := hy.tok
  cases fuel with
  | zero => rfl
  | succ fuel =>
    rw [parseKeyval]
    refine runs_get.bind_faults ?_
    rw [if_neg hstr]
    refine heat.bind_faults (faults_if_neg (not_not.mpr hx.tok) (heat'.bind_faults ?_))
    refine runs_get.bind_faults ?_
    rw [htok]
    simp only [hcreate,lift,pure_bind,pointer,List.getElem?_concat_length]
    refine Faults.bind ?_
    cases fuel with
    | zero => rfl
    | succ fuel =>
      rw [parseArray]
      exact heat''.bind_faults
        (values_unterminated h hvs hof (accepts_empty (some key) s) hz fuel).bind

theorem file_unterminated {es : Entries} {ls : List Lexeme} {t : Token} {root : Table}
    (h : WritesOpen es ls) (hv : es.WellFormed strtod) (hnodup : es.names.Nodup)
    (hnew : ∀ k ∈ es.names, some k ∉ root.keys) (ht : Reads ls t) (fuel : ℕ) :
    Faults (parseLoop strtod fuel root []) t .outOfFuel := by
  induction h generalizing root t fuel with
  | @last key text vs ls n k hkey h =>
    refine parseLoop_stuck_newlines ht (undotted_key hkey) (fun w fuel hw => ?_) fuel
    cases fuel with
    | zero => rfl
    | succ fuel =>
      have htok : w.tok = .STRING := hw.tok
      refine runs_get.bind_faults ?_
      rw [hw.notEof,if_neg Bool.false_ne_true,htok]
      refine Runs.bind_faults (t := w) (runs_pure : Runs (pointer (root.find [])) w root w) ?_
      exact (keyval_unterminated hkey h hv.1 (hnew key (by simp [Entries.names])) hw fuel).bind
  | @cons key text v es ls ls' n hkey h hs ih =>
    refine parseLoop_stuck_newlines ht (undotted_key hkey) (fun w fuel hw => ?_) fuel
    obtain ⟨fkey,x,hkeyval,hx⟩ := keyval_parses hkey h (value_parses h hv.1)
      (hnew key (by simp [Entries.names])) hw
    obtain ⟨y,heat,hy⟩ := runs_eatToken hx 1260
    rw [Entries.names,List.nodup_cons] at hnodup
    have hfresh : ∀ k ∈ es.names, some k ∉ (v.addTo strtod key root).keys :=
      fresh_addTo hnodup.1 hnew
    cases fuel with
    | zero => rfl
    | succ fuel =>
      have htok : w.tok = .STRING := hw.tok
      refine runs_get.bind_faults ?_
      rw [hw.notEof,if_neg Bool.false_ne_true,htok]
      refine Runs.bind_faults (t := w) (runs_pure : Runs (pointer (root.find [])) w root w) ?_
      refine faults_bind_of (faults_or_runs (g := fun n => parseKeyval strtod n root)
        (fun n => (parser_approx strtod n).keyval root) hkeyval fuel) ?_
      refine faults_if_neg (not_not.mpr hx.tok) (heat.bind_faults ?_)
      exact ih hv.2 hnodup.2 hfresh hy fuel

end files

theorem tomlParse_unterminated (strtod : Bytes → Bool) {doc : Entries} {ls : List Lexeme}
    {src : Bytes} (hdoc : doc.WellFormed strtod) (hnames : doc.names.Nodup)
    (hwrites : WritesOpen doc ls) (hspells : Spells ls (cString src)) : Hangs strtod src := by
  intro fuel
  obtain ⟨t,hmake,ht⟩ := reads_makeToken true 1 hspells
    (fun _ => undotted_open hwrites) (fun hf => by cases hf)
  have hempty : ∀ k ∈ doc.names, some k ∉ (Table.empty none false).keys := by
    simp [Table.keys,Table.empty]
  have hstuck : Faults (parseLoop strtod fuel (Table.empty none false) [])
      (startToken (cString src)) .outOfFuel := by
    cases fuel with
    | zero => rfl
    | succ fuel =>
      refine runs_get.bind_faults ((runs_start hmake).bind_faults ?_)
      exact file_unterminated hwrites hdoc hnames hempty ht fuel
  rw [Faults] at hstuck
  rw [tomlParse,hstuck]

def openLayout : List (Bytes × Lexeme) :=
  [([],.str (cstr "exts")),([space],.equal),([space],.lbracket),([],.newline),
    ([tab],.str (cstr "44")),([],.comma),([],.newline)]

theorem tomlParse_unterminated_exts : Hangs digitsOnly (layOut [] openLayout) :=
  tomlParse_unterminated digitsOnly extsDoc_wellFormed (by decide)
    (.last 0 1 ⟨by decide,by decide⟩ (.cons 0 1 (.raw _) .nil))
    (show Spells (openLayout.map Prod.snd) (layOut [] openLayout) from
      spells_layOut (by decide +kernel))

end Toml
