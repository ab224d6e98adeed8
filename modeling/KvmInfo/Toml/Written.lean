import KvmInfo.Toml.Documents

namespace Toml
open Exec Caps

section keys
variable {text rest : Bytes} {lineno : ℕ} {key : Bytes}

theorem quoteWidth_append {ch : UInt8} (hch : text.head? = some ch) (hd : rest.head? ≠ some ch) :
    quoteWidth (text ++ rest) ch = quoteWidth text ch := by
  have hiff : (text ++ rest)[1]? = some ch ∧ (text ++ rest)[2]? = some ch ↔
      text[1]? = some ch ∧ text[2]? = some ch := by
    rw [List.head?_eq_getElem?] at hd
    rcases text with _ | ⟨a,_ | ⟨b,_ | ⟨c,w⟩⟩⟩
    · cases hch
    · simp [hd]
    · simp [hd]
    · rfl
  rw [quoteWidth,quoteWidth]
  simp only [hiff]

theorem quotedKey_append {ch : UInt8} (hch : text.head? = some ch) (hd : rest.head? ≠ some ch)
    (h : quotedKey (retToken .STRING 1 text text.length) ch = .ok key) :
    quotedKey (retToken .STRING lineno (text ++ rest) text.length) ch = .ok key := by
  simp only [quotedKey,retToken,quoteWidth_append hch hd,
    List.take_append_of_le_length (Nat.sub_le text.length (quoteWidth text ch))] at h ⊢
  split_ifs at h ⊢
  · exact h
  · split at h
    · exact h
    · cases h

theorem normalizeKey_quoted {t : Token} {c : UInt8} (hc : t.ptr.headD 0 = c)
    (hq : c = squote ∨ c = dquote) :
    normalizeKey t = .ok key ↔ quotedKey t c = .ok key ∧ newline ∉ key := by
  simp only [normalizeKey,hc,hq,if_true]
  cases quotedKey t c with
  | error e => simp
  | ok ret =>
    simp only [Except.ok.injEq]
    constructor
    · intro h
      split_ifs at h with hnl
      cases h
      exact ⟨rfl,hnl⟩
    · rintro ⟨rfl,hnl⟩
      rw [if_neg hnl]

theorem normalizeKey_bare {t : Token} {c : UInt8} (hc : t.ptr.headD 0 = c)
    (hq : ¬(c = squote ∨ c = dquote)) :
    normalizeKey t = .ok key ↔ t.text.all bareKeyByte = true ∧ t.text = key := by
  simp only [normalizeKey,hc,hq,if_false]
  split_ifs with hall
  · simp [hall]
  · simp [hall]

theorem names_token (h : Names key text) (hd : Parted rest) :
    normalizeKey (retToken .STRING lineno (text ++ rest) text.length) = .ok key := by
  obtain ⟨hscan,hkey⟩ := h
  obtain ⟨c,w,rfl,-⟩ := scans_head hscan
  by_cases hq : c = squote ∨ c = dquote
  · have hne : rest.head? ≠ some c := by
      rcases hq with rfl | rfl
      · exact (head?_ne_of_parted hd).1
      · exact (head?_ne_of_parted hd).2
    rw [normalizeKey_quoted (c := c) rfl hq] at hkey ⊢
    exact ⟨quotedKey_append rfl hne hkey.1,hkey.2⟩
  · rw [normalizeKey_bare (c := c) rfl hq] at hkey ⊢
    have htext : (retToken .STRING lineno (c :: w ++ rest) (c :: w).length).text = c :: w :=
      List.take_left
    have htext' : (retToken .STRING 1 (c :: w) (c :: w).length).text = c :: w := List.take_length
    rw [htext'] at hkey
    rw [htext]
    exact hkey

end keys

section steps
variable {l : Lexeme} {ls : List Lexeme} {t : Token}

theorem runs_eatToken (h : Reads (l :: ls) t) (fline : ℕ) (hl : l.dotted = false := by rfl) :
    ∃ u, Runs (eatToken l.tok fline) t () u ∧ Reads ls u := by
  obtain ⟨u,hrun,hu⟩ := runs_nextToken_plain h hl
  exact ⟨u,runs_if_pos h.tok hrun,hu⟩

theorem reads_ne_newline (h : Reads (l :: ls) t) (hl : l ≠ .newline) : t.tok ≠ .NEWLINE := by
  rw [h.tok]
  cases l <;> simp_all [Lexeme.tok]

theorem runs_skipNewlines {n : ℕ} (h : Reads (newlines n ++ l :: ls) t) (hl : l ≠ .newline) :
    ∃ u, Runs (skipNewlines (n + 1)) t () u ∧ Reads (l :: ls) u := by
  induction n generalizing t with
  | zero => exact ⟨t,runs_if_neg (reads_ne_newline h hl) runs_pure,h⟩
  | succ n ih =>
    have h' : Reads (.newline :: (newlines n ++ l :: ls)) t := h
    obtain ⟨u,hrun,hu⟩ := runs_nextToken_plain h' rfl
    obtain ⟨v,hrun',hv⟩ := ih hu
    exact ⟨v,runs_if_pos h'.tok (hrun.bind hrun'),hv⟩

theorem writes_starts {v : Value} (h : v.Writes ls) :
    ∃ l ls', ls = l :: ls' ∧ l ≠ .newline ∧ l ≠ .rbracket := by
  cases h with
  | raw v => exact ⟨_,_,rfl,by simp,by simp⟩
  | array n h => exact ⟨_,_,rfl,by simp,by simp⟩
  | table n h => exact ⟨_,_,rfl,by simp,by simp⟩

end steps

section arrays
variable {strtod : Bytes → Bool}

def Arr.Accepts (a : Arr) (s : Kind × Option ValType) : Prop :=
  a = Arr.empty a.key ∨ a.kind = s.1 ∧ a.nelem ≠ 0 ∧ (s.1 = .value → a.type = s.2)

theorem accepts_empty (key : Option Bytes) (s : Kind × Option ValType) :
    (Arr.empty key).Accepts s :=
  Or.inl rfl

theorem pushTo_accepts {v : Value} {a : Arr} : (v.pushTo strtod a).Accepts (v.sort strtod) := by
  cases v with
  | raw v => exact Or.inr ⟨rfl,by simp [Value.pushTo,Arr.nelem],fun _ => rfl⟩
  | array vs => exact Or.inr ⟨rfl,by simp [Value.pushTo,Arr.nelem],fun h => by cases h⟩
  | table es => exact Or.inr ⟨rfl,by simp [Value.pushTo,Arr.nelem],fun h => by cases h⟩

theorem accepts_setKind {a : Arr} {s : Kind × Option ValType} (h : a.Accepts s) :
    a.setKind s.1 = { a with kind := s.1 } := by
  rw [Arr.setKind]
  split_ifs with hkind
  · rfl
  · rcases h with h | ⟨hs,-⟩
    · rw [h] at hkind
      exact absurd rfl hkind
    · cases a
      simp only at hs
      rw [hs]

theorem accepts_pushVal {a : Arr} {v : Bytes} (h : a.Accepts ((Value.raw v).sort strtod)) :
    pushVal strtod { a with kind := .value } v = some ((Value.raw v).pushTo strtod a) := by
  rcases h with h | ⟨-,hn,htype⟩
  · rw [h]
    rfl
  · have htype' : a.type = some (valtype strtod v) := htype rfl
    simp only [pushVal,Value.pushTo,htype',if_true,ite_self]

def Value.Parses (strtod : Bytes → Bool) (ls : List Lexeme) : Value → Prop
  | .raw _ => True
  | .array vs => ∀ key rest t, Reads (ls ++ rest) t → ∃ fuel u,
      Runs (parseArray strtod fuel (Arr.empty key)) t (vs.fill strtod (Arr.empty key)) u ∧
        Reads rest u
  | .table es => ∀ key rest t, Reads (ls ++ rest) t → ∃ fuel u,
      Runs (parseTable strtod fuel (Table.empty key false)) t
        (es.fill strtod (Table.empty key false)) u ∧ Reads rest u

def Values.Parses (strtod : Bytes → Bool) (ls : List Lexeme) (vs : Values) : Prop :=
  ∀ s a, vs.Of strtod s → a.Accepts s → ∀ n rest t,
    Reads (newlines n ++ (ls ++ .rbracket :: rest)) t → ∃ fuel u,
      Runs (parseArrayLoop strtod fuel a) t (vs.fill strtod a) u ∧ Reads (.rbracket :: rest) u

def Entries.Parses (strtod : Bytes → Bool) (ls : List Lexeme) (es : Entries) : Prop :=
  ∀ tab : Table, es.names.Nodup → (∀ k ∈ es.names, some k ∉ tab.keys) → ∀ n rest t,
    Reads (newlines n ++ (ls ++ .rbrace :: rest)) t → ∃ fuel u,
      Runs (parseTableLoop strtod fuel tab) t (es.fill strtod tab) u ∧ Reads (.rbrace :: rest) u

variable {ls rest : List Lexeme} {t : Token} {v : Value} {a : Arr}

theorem array_parses {vs : Values} {n : ℕ} (hs : ∃ s, vs.Of strtod s) (h : vs.Parses strtod ls) :
    (Value.array vs).Parses strtod (.lbracket :: (newlines n ++ ls ++ [.rbracket])) := by
  intro key rest t ht
  obtain ⟨s,hs⟩ := hs
  simp only [List.cons_append,List.append_assoc,List.nil_append] at ht
  obtain ⟨u,heat,hu⟩ := runs_eatToken ht 824
  obtain ⟨fuel,w,hloop,hw⟩ := h s _ hs (accepts_empty key s) n rest u hu
  obtain ⟨x,heat',hx⟩ := runs_eatToken hw 918
  refine ⟨fuel + 1,x,?_,hx⟩
  rw [parseArray]
  exact heat.bind (hloop.bind (runs_if_pos hw.tok (heat'.bind runs_pure)))

theorem table_parses {es : Entries} {n : ℕ} (hnodup : es.names.Nodup)
    (h : es.Parses strtod ls) :
    (Value.table es).Parses strtod (.lbrace :: (newlines n ++ ls ++ [.rbrace])) := by
  intro key rest t ht
  simp only [List.cons_append,List.append_assoc,List.nil_append] at ht
  obtain ⟨u,heat,hu⟩ := runs_eatToken ht 774
  obtain ⟨fuel,w,hloop,hw⟩ := h (Table.empty key false) hnodup
    (by simp [Table.keys,Table.empty]) n rest u hu
  obtain ⟨x,heat',hx⟩ := runs_eatToken hw 802
  refine ⟨fuel + 1,x,?_,hx⟩
  rw [parseTable]
  exact heat.bind (hloop.bind (runs_if_pos hw.tok (heat'.bind runs_pure)))

theorem element_parses (hw : v.Writes ls) (hp : v.Parses strtod ls)
    (ha : a.Accepts (v.sort strtod)) (ht : Reads (ls ++ rest) t) :
    ∃ fuel u, Runs (parseElement strtod fuel a) t (v.pushTo strtod a) u ∧ Reads rest u := by
  have hkind := accepts_setKind ha
  cases hw with
  | raw v =>
    obtain ⟨u,heat,hu⟩ := runs_eatToken ht 868
    refine ⟨1,u,?_,hu⟩
    rw [parseElement]
    refine runs_get.bind ?_
    rw [(ht.tok : t.tok = .STRING)]
    simp only [Value.sort] at hkind
    simp only [hkind,ne_eq,not_true_eq_false,if_false]
    refine runs_get.bind ?_
    have htext : t.text = v := ht.text
    rw [htext,accepts_pushVal ha]
    exact heat.bind runs_pure
  | @array vs ls n h =>
    obtain ⟨fuel,u,hrun,hu⟩ := hp none rest t ht
    refine ⟨fuel + 1,u,?_,hu⟩
    rw [parseElement]
    refine runs_get.bind ?_
    rw [(ht.tok : t.tok = .LBRACKET)]
    simp only [Value.sort] at hkind
    simp only [hkind,ne_eq,not_true_eq_false,if_false]
    exact hrun.bind runs_pure
  | @table es ls n h =>
    obtain ⟨fuel,u,hrun,hu⟩ := hp none rest t ht
    refine ⟨fuel + 1,u,?_,hu⟩
    rw [parseElement]
    refine runs_get.bind ?_
    rw [(ht.tok : t.tok = .LBRACE)]
    simp only [Value.sort] at hkind
    simp only [hkind,ne_eq,not_true_eq_false,if_false]
    exact hrun.bind runs_pure

theorem arrayLoop_turn {n k : ℕ} {l : Lexeme} (hw : v.Writes ls) (hp : v.Parses strtod ls)
    (ha : a.Accepts (v.sort strtod)) (hl : l ≠ .newline)
    (ht : Reads (newlines n ++ (ls ++ (newlines k ++ l :: rest))) t) :
    ∃ bound w, Reads (l :: rest) w ∧ ∀ fuel, bound ≤ fuel → ∀ r u,
      Runs (do
        if (← get).tok = .COMMA then do
          eatToken .COMMA 907
          parseArrayLoop strtod fuel (v.pushTo strtod a)
        else return v.pushTo strtod a) w r u →
      Runs (parseArrayLoop strtod (fuel + 1) a) t r u := by
  obtain ⟨first,ls',rfl,hfirst,hclose⟩ := writes_starts hw
  rw [List.cons_append] at ht
  obtain ⟨x,hskip,hx⟩ := runs_skipNewlines ht hfirst
  obtain ⟨felem,y,helem,hy⟩ := element_parses hw hp ha (t := x) hx
  obtain ⟨w,hskip',hw⟩ := runs_skipNewlines hy hl
  refine ⟨max felem (max (n + 1) (k + 1)),w,hw,fun fuel hfuel r u htail => ?_⟩
  have htok : x.tok ≠ .RBRACKET := by
    rw [hx.tok]
    cases first <;> simp_all [Lexeme.tok]
  rw [parseArrayLoop]
  refine (runs_skipNewlines_le hskip (by omega)).bind (runs_if_neg htok ?_)
  refine (runs_parseElement_le helem (by omega)).bind ?_
  exact (runs_skipNewlines_le hskip' (by omega)).bind htail

theorem values_last {n : ℕ} (hw : v.Writes ls) (hp : v.Parses strtod ls) :
    (Values.cons v .nil).Parses strtod (ls ++ newlines n) := by
  intro s a hs ha k rest t ht
  rw [List.append_assoc] at ht
  obtain ⟨hsort,-⟩ := hs
  rw [← hsort] at ha
  obtain ⟨bound,w,hread,hturn⟩ := arrayLoop_turn hw hp ha (by simp) ht
  refine ⟨bound + 1,w,hturn bound le_rfl _ _ (runs_if_neg ?_ runs_pure),hread⟩
  rw [hread.tok]
  decide

theorem values_cons {vs : Values} {ls' : List Lexeme} {n k : ℕ} (hw : v.Writes ls)
    (hp : v.Parses strtod ls) (hs : vs.Parses strtod ls') :
    (Values.cons v vs).Parses strtod (ls ++ (newlines n ++ .comma :: (newlines k ++ ls'))) := by
  intro s a hof ha m rest t ht
  simp only [List.append_assoc,List.cons_append] at ht
  obtain ⟨hsort,hof⟩ := hof
  rw [← hsort] at ha hof
  obtain ⟨bound,w,hread,hturn⟩ := arrayLoop_turn hw hp ha (by simp) ht
  obtain ⟨x,heat,hx⟩ := runs_eatToken hread 907
  obtain ⟨floop,u,hloop,hu⟩ := hs _ _ hof pushTo_accepts k rest x hx
  refine ⟨max bound floop + 1,u,hturn _ (le_max_left _ _) _ _ ?_,hu⟩
  exact runs_if_pos hread.tok (heat.bind (runs_parseArrayLoop_le hloop (le_max_right _ _)))

theorem values_nil : Values.nil.Parses strtod [] := by
  intro s a hs ha n rest t ht
  obtain ⟨u,hskip,hu⟩ := runs_skipNewlines ht (by simp)
  refine ⟨n + 2,u,?_,hu⟩
  rw [parseArrayLoop]
  exact hskip.bind (runs_if_pos hu.tok runs_pure)

end arrays

section tables
variable {strtod : Bytes → Bool} {ls rest : List Lexeme} {t : Token} {v : Value} {tab : Table}
variable {key text : Bytes}

theorem reads_key {w : List Lexeme} (hkey : Names key text) (ht : Reads (.str text :: w) t) :
    normalizeKey t = .ok key := by
  cases ht with
  | lexeme lineno h hs => exact names_token hkey hs.2.1.parted

theorem reads_assignment (ht : Reads (.str text :: .equal :: ls) t) :
    ∃ y, Reads ls y ∧ ∀ (body : Token → Parser Table) (r : Table) (u : Token),
      Runs (body t) y r u → Runs (do
        let key ← get
        if key.tok ≠ .STRING then fail (.internal 931)
        else do
          eatToken .STRING 937
          if (← get).tok ≠ .EQUAL then failHere "missing ="
          else do
            eatToken .EQUAL 943
            body key) t r u := by
  obtain ⟨x,heat,hx⟩ := runs_eatToken ht 937
  obtain ⟨y,heat',hy⟩ := runs_eatToken hx 943
  refine ⟨y,hy,fun body r u hrun => ?_⟩
  have hstr : ¬t.tok ≠ .STRING := not_not.mpr ht.tok
  have hequal : ¬x.tok ≠ .EQUAL := not_not.mpr hx.tok
  refine runs_get.bind ?_
  rw [if_neg hstr]
  exact heat.bind (runs_if_neg hequal (heat'.bind hrun))

theorem keyval_parses (hkey : Names key text) (hw : v.Writes ls) (hp : v.Parses strtod ls)
    (hnew : some key ∉ tab.keys) (ht : Reads (.str text :: .equal :: (ls ++ rest)) t) :
    ∃ fuel u, Runs (parseKeyval strtod fuel tab) t (v.addTo strtod key tab) u ∧ Reads rest u := by
  have hnorm := reads_key hkey ht
  have hcheck := checkKey_of_not_mem hnew
  obtain ⟨y,hy,hstart⟩ := reads_assignment ht
  cases hw with
  | raw v =>
    obtain ⟨u,heat,hu⟩ := runs_eatToken hy 957
    refine ⟨1,u,?_,hu⟩
    have htok : y.tok = .STRING := hy.tok
    have htext : y.text = v := hy.text
    have hcreate : createKeyvalInTable tab t v = .ok ((Value.raw v).addTo strtod key tab) := by
      simp only [createKeyvalInTable,hnorm,hcheck,bind,Except.bind]
      rfl
    rw [parseKeyval]
    refine hstart _ _ _ (runs_get.bind ?_)
    rw [htok]
    refine runs_get.bind ?_
    simp only [htext,hcreate,lift,pure_bind]
    exact heat.bind runs_pure
  | @array vs ls n h =>
    obtain ⟨fuel,u,hrun,hu⟩ := hp (some key) rest y hy
    refine ⟨fuel + 1,u,?_,hu⟩
    have htok : y.tok = .LBRACKET := hy.tok
    have hcreate : createKeyarrayInTable tab t false =
        .ok ({ tab with arr := tab.arr ++ [Arr.empty (some key)] },some tab.arr.length) := by
      simp only [createKeyarrayInTable,hnorm,hcheck,bind,Except.bind]
      rfl
    rw [parseKeyval]
    refine hstart _ _ _ (runs_get.bind ?_)
    rw [htok]
    simp only [hcreate,lift,pure_bind,pointer,List.getElem?_concat_length]
    refine hrun.bind ?_
    rw [setArr,List.set_append_right _ _ le_rfl,Nat.sub_self,List.set_cons_zero]
    exact runs_pure
  | @table es ls n h =>
    obtain ⟨fuel,u,hrun,hu⟩ := hp (some key) rest y hy
    refine ⟨fuel + 1,u,?_,hu⟩
    have htok : y.tok = .LBRACE := hy.tok
    have hcreate : createKeytableInTable tab t =
        .ok ({ tab with tab := tab.tab ++ [Table.empty (some key) false] },tab.tab.length) := by
      simp only [createKeytableInTable,hnorm,hcheck,bind,Except.bind]
      rfl
    rw [parseKeyval]
    refine hstart _ _ _ (runs_get.bind ?_)
    rw [htok]
    simp only [hcreate,lift,pure_bind,pointer,List.getElem?_concat_length]
    refine hrun.bind ?_
    rw [setTab,List.set_append_right _ _ le_rfl,Nat.sub_self,List.set_cons_zero]
    exact runs_pure

theorem tableLoop_turn {n k : ℕ} {l : Lexeme} (hkey : Names key text) (hw : v.Writes ls)
    (hp : v.Parses strtod ls) (hnew : some key ∉ tab.keys) (hl : l ≠ .newline)
    (ht : Reads (newlines n ++ (.str text :: .equal :: (ls ++ (newlines k ++ l :: rest)))) t) :
    ∃ bound w, Reads (l :: rest) w ∧ ∀ fuel, bound ≤ fuel → ∀ r u,
      Runs (do
        if (← get).tok = .COMMA then do
          eatToken .COMMA 791
          parseTableLoop strtod fuel (v.addTo strtod key tab)
        else return v.addTo strtod key tab) w r u →
      Runs (parseTableLoop strtod (fuel + 1) tab) t r u := by
  obtain ⟨x,hskip,hx⟩ := runs_skipNewlines ht (by simp)
  obtain ⟨fkey,y,hkeyval,hy⟩ := keyval_parses hkey hw hp hnew hx
  obtain ⟨w,hskip',hw⟩ := runs_skipNewlines hy hl
  refine ⟨max fkey (max (n + 1) (k + 1)),w,hw,fun fuel hfuel r u htail => ?_⟩
  have htok : x.tok ≠ .RBRACE := by
    rw [hx.tok]
    simp [Lexeme.tok]
  rw [parseTableLoop]
  refine (runs_skipNewlines_le hskip (by omega)).bind (runs_if_neg htok (runs_if_pos hx.tok ?_))
  refine (runs_parseKeyval_le hkeyval (by omega)).bind ?_
  exact (runs_skipNewlines_le hskip' (by omega)).bind htail

theorem entries_last {n : ℕ} (hkey : Names key text) (hw : v.Writes ls)
    (hp : v.Parses strtod ls) :
    (Entries.cons key v .nil).Parses strtod (.str text :: .equal :: (ls ++ newlines n)) := by
  intro tab hnodup hnew k rest t ht
  simp only [List.cons_append,List.append_assoc] at ht
  obtain ⟨bound,w,hread,hturn⟩ :=
    tableLoop_turn hkey hw hp (hnew key (by simp [Entries.names])) (by simp) ht
  refine ⟨bound + 1,w,hturn bound le_rfl _ _ (runs_if_neg ?_ runs_pure),hread⟩
  rw [hread.tok]
  decide

theorem entries_cons {es : Entries} {ls' : List Lexeme} {n k : ℕ} (hkey : Names key text)
    (hw : v.Writes ls) (hp : v.Parses strtod ls) (hs : es.Parses strtod ls') :
    (Entries.cons key v es).Parses strtod
      (.str text :: .equal :: (ls ++ (newlines n ++ .comma :: (newlines k ++ ls')))) := by
  intro tab hnodup hnew m rest t ht
  rw [Entries.names,List.nodup_cons] at hnodup
  simp only [List.cons_append,List.append_assoc] at ht
  obtain ⟨bound,w,hread,hturn⟩ :=
    tableLoop_turn hkey hw hp (hnew key (by simp [Entries.names])) (by simp) ht
  obtain ⟨x,heat,hx⟩ := runs_eatToken hread 791
  have hfresh : ∀ k ∈ es.names, some k ∉ (v.addTo strtod key tab).keys :=
    fresh_addTo hnodup.1 hnew
  obtain ⟨floop,u,hloop,hu⟩ := hs _ hnodup.2 hfresh k rest x hx
  refine ⟨max bound floop + 1,u,hturn _ (le_max_left _ _) _ _ ?_,hu⟩
  exact runs_if_pos hread.tok (heat.bind (runs_parseTableLoop_le hloop (le_max_right _ _)))

theorem entries_nil : Entries.nil.Parses strtod [] := by
  intro tab hnodup hnew n rest t ht
  obtain ⟨u,hskip,hu⟩ := runs_skipNewlines ht (by simp)
  refine ⟨n + 2,u,?_,hu⟩
  rw [parseTableLoop]
  exact hskip.bind (runs_if_pos hu.tok runs_pure)

end tables

section parses
variable {strtod : Bytes → Bool}

mutual

theorem value_parses {v : Value} {ls : List Lexeme} (h : v.Writes ls)
    (hv : v.WellFormed strtod) : v.Parses strtod ls := by
  cases h with
  | raw v => trivial
  | array n h => exact array_parses hv.1 (values_parse h hv.2)
  | table n h => exact table_parses hv.1 (entries_parse h hv.2)

theorem values_parse {vs : Values} {ls : List Lexeme} (h : vs.Writes ls)
    (hv : vs.WellFormed strtod) : vs.Parses strtod ls := by
  cases h with
  | nil => exact values_nil
  | last n h => exact values_last h (value_parses h hv.1)
  | cons n k h hs => exact values_cons h (value_parses h hv.1) (values_parse hs hv.2)

theorem entries_parse {es : Entries} {ls : List Lexeme} (h : es.Writes ls)
    (hv : es.WellFormed strtod) : es.Parses strtod ls := by
  cases h with
  | nil => exact entries_nil
  | last n hkey h => exact entries_last hkey h (value_parses h hv.1)
  | cons n k hkey h hs =>
    exact entries_cons hkey h (value_parses h hv.1) (entries_parse hs hv.2)

end

end parses

section files
variable {strtod : Bytes → Bool} {ls : List Lexeme} {t : Token} {root r : Table} {curtab : Path}

theorem runs_parseLoop_eof (ht : Reads [] t) : Runs (parseLoop strtod 1 root curtab) t root t := by
  cases ht with
  | eof lineno => exact runs_get.bind runs_pure

theorem runs_parseLoop_newline (ht : Reads (.newline :: ls) t) (hls : Undotted ls)
    (h : ∀ w, Reads ls w → ∃ fuel u, Runs (parseLoop strtod fuel root curtab) w r u) :
    ∃ fuel u, Runs (parseLoop strtod fuel root curtab) t r u := by
  obtain ⟨w,hrun,hw⟩ := runs_nextToken_dotted ht hls
  obtain ⟨fuel,u,hloop⟩ := h w hw
  refine ⟨fuel + 1,u,runs_get.bind ?_⟩
  have htok : t.tok = .NEWLINE := ht.tok
  rw [ht.notEof,if_neg Bool.false_ne_true,htok]
  exact hrun.bind hloop

theorem undotted_newlines (n : ℕ) (hls : Undotted ls) : Undotted (newlines n ++ ls) := by
  cases n with
  | zero => exact hls
  | succ n => exact fun v hv => by cases hv

theorem runs_parseLoop_newlines {n : ℕ} (ht : Reads (newlines n ++ ls) t) (hls : Undotted ls)
    (h : ∀ w, Reads ls w → ∃ fuel u, Runs (parseLoop strtod fuel root curtab) w r u) :
    ∃ fuel u, Runs (parseLoop strtod fuel root curtab) t r u := by
  induction n generalizing t with
  | zero => exact h t ht
  | succ n ih => exact runs_parseLoop_newline ht (undotted_newlines n hls) fun w hw => ih hw

theorem undotted_key {key text : Bytes} (hkey : Names key text) : Undotted (.str text :: ls) := by
  intro v hv
  cases hv
  exact hkey.1

theorem undotted_file {es : Entries} (h : WritesFile es ls) : Undotted ls := by
  cases h with
  | nil n =>
    rw [← List.append_nil (newlines n)]
    exact undotted_newlines n fun v hv => by cases hv
  | last n hkey h => exact undotted_newlines n (undotted_key hkey)
  | cons n hkey h hs => exact undotted_newlines n (undotted_key hkey)

theorem runs_parseLoop_entry {key text : Bytes} {v : Value} {rest : List Lexeme} {tab : Table}
    (hkey : Names key text) (hw : v.Writes ls) (hp : v.Parses strtod ls)
    (hfind : root.find curtab = some tab) (hnew : some key ∉ tab.keys)
    (ht : Reads (.str text :: .equal :: (ls ++ rest)) t)
    (hend : ∀ w, Reads rest w → ∃ x, w.tok = .NEWLINE ∧ Runs (eatToken .NEWLINE 1260) w () x ∧
      ∃ fuel u, Runs
        (parseLoop strtod fuel (root.update (fun _ => v.addTo strtod key tab) curtab) curtab) x r u) :
    ∃ fuel u, Runs (parseLoop strtod fuel root curtab) t r u := by
  obtain ⟨fkey,w,hkeyval,hw⟩ := keyval_parses hkey hw hp hnew ht
  obtain ⟨x,hnl,heat,fuel,u,hloop⟩ := hend w hw
  refine ⟨max fkey fuel + 1,u,runs_get.bind ?_⟩
  have htok : t.tok = .STRING := ht.tok
  rw [ht.notEof,if_neg Bool.false_ne_true,htok]
  rw [hfind]
  refine Runs.bind (t := t) (runs_pure : Runs (pointer (some tab)) t tab t) ?_
  refine (runs_parseKeyval_le hkeyval (le_max_left _ _)).bind ?_
  exact runs_if_neg (not_not.mpr hnl)
    (heat.bind (runs_parseLoop_le hloop (le_max_right _ _)))

theorem file_parses {es : Entries} (h : WritesFile es ls) (hv : es.WellFormed strtod)
    (hnodup : es.names.Nodup) (hnew : ∀ k ∈ es.names, some k ∉ root.keys) (ht : Reads ls t) :
    ∃ fuel u, Runs (parseLoop strtod fuel root []) t (es.fill strtod root) u := by
  induction h generalizing root t with
  | nil n =>
    rw [← List.append_nil (newlines n)] at ht
    exact runs_parseLoop_newlines ht (fun v hv => by cases hv) fun w hw =>
      ⟨1,w,runs_parseLoop_eof hw⟩
  | @last key text v ls n hkey h =>
    refine runs_parseLoop_newlines ht (undotted_key hkey) fun w hw => ?_
    rw [← List.append_nil ls] at hw
    refine runs_parseLoop_entry hkey h (value_parses h hv.1) rfl (hnew key (by simp [Entries.names]))
      hw fun x hx => ?_
    obtain ⟨y,hrun,hy⟩ := runs_nextToken_eof hx false
    have htok : x.tok = .NEWLINE := by
      cases hx with
      | eof lineno => rfl
    exact ⟨y,htok,runs_if_pos htok hrun,1,y,runs_parseLoop_eof hy⟩
  | @cons key text v es ls ls' n hkey h hs ih =>
    refine runs_parseLoop_newlines ht (undotted_key hkey) fun w hw => ?_
    refine runs_parseLoop_entry hkey h (value_parses h hv.1) rfl (hnew key (by simp [Entries.names]))
      hw fun x hx => ?_
    obtain ⟨y,heat,hy⟩ := runs_eatToken hx 1260
    rw [Entries.names,List.nodup_cons] at hnodup
    exact ⟨y,hx.tok,heat,ih hv.2 hnodup.2 (fresh_addTo hnodup.1 hnew) hy⟩

end files

theorem runs_start {conf : Bytes} {t : Token} (h : makeToken true 1 conf = .ok t) :
    Runs (nextToken true) (startToken conf) () t := by
  have hstart : makeToken true ((startToken conf).lineno + (startToken conf).text.count newline)
      ((startToken conf).ptr.drop (startToken conf).len) = .ok t := h
  refine runs_get.bind ?_
  rw [hstart]
  rfl

theorem tomlParse_loop {strtod : Bytes → Bool} {ls : List Lexeme} {src : Bytes} {r : Table}
    (hundotted : Undotted ls) (hspells : Spells ls (cString src))
    (h : ∀ t, Reads ls t →
      ∃ fuel u, Runs (parseLoop strtod fuel (Table.empty none false) []) t r u) :
    tomlParse strtod (enoughFuel src) src = .ok r := by
  obtain ⟨t,hmake,ht⟩ := reads_makeToken true 1 hspells (fun _ => hundotted) (fun hf => by cases hf)
  obtain ⟨fuel,u,hrun⟩ := h t ht
  have hstart : Runs (parseLoop strtod (fuel + 1) (Table.empty none false) [])
      (startToken (cString src)) r u := by
    exact runs_get.bind ((runs_start hmake).bind hrun)
  have hparse : tomlParse strtod (fuel + 1) src = .ok r := by
    rw [Runs] at hstart
    rw [tomlParse,hstart]
  rw [← hparse]
  refine (tomlParse_returns ?_).symm
  rw [hparse]
  simp

theorem tomlParse_reads (strtod : Bytes → Bool) {doc : Entries} {ls : List Lexeme} {src : Bytes}
    (hdoc : doc.WellFormed strtod) (hnames : doc.names.Nodup) (hwrites : WritesFile doc ls)
    (hspells : Spells ls (cString src)) :
    tomlParse strtod (enoughFuel src) src = .ok (doc.fill strtod (Table.empty none false)) := by
  have hempty : ∀ k ∈ doc.names, some k ∉ (Table.empty none false).keys := by
    simp [Table.keys,Table.empty]
  exact tomlParse_loop (undotted_file hwrites) hspells fun t ht =>
    file_parses hwrites hdoc hnames hempty ht

theorem tomlParse_written (strtod : Bytes → Bool) {doc : Entries} {ls : List Lexeme} {src : Bytes}
    (hdoc : doc.WellFormed strtod) (hnames : doc.names.Nodup) (hwrites : WritesFile doc ls)
    (hspells : Spells ls (cString src)) :
    tomlParse strtod (enoughFuel src) src = .ok (doc.fill strtod (Table.empty none false)) :=
  tomlParse_reads strtod hdoc hnames hwrites hspells

section witness

def digitsOnly (v : Bytes) : Bool := v.all isDigit

def extsDoc : Entries := .cons (cstr "exts") (.array (.cons (.raw (cstr "44")) .nil)) .nil

def extsLayout : List (Bytes × Lexeme) :=
  [([],.str (cstr "exts")),([space],.equal),([space],.lbracket),([],.newline),
    ([tab],.str (cstr "44")),([],.comma),(cstr "  # KVM_CAP_HYPERV",.newline),([],.rbracket),
    ([],.newline)]

theorem extsDoc_writes : WritesFile extsDoc (extsLayout.map Prod.snd) :=
  .cons 0 ⟨by decide,by decide⟩ (.array 1 (.cons 0 1 (.raw _) .nil)) (.nil 0)

theorem extsDoc_wellFormed : extsDoc.WellFormed digitsOnly :=
  ⟨⟨⟨(.value,some .int),⟨by decide,trivial⟩⟩,⟨trivial,trivial⟩⟩,trivial⟩

theorem extsLayout_spells : Spells (extsLayout.map Prod.snd) (cString (layOut [] extsLayout)) := by
  have hplain : cString (layOut [] extsLayout) = layOut [] extsLayout := by decide
  rw [hplain]
  exact spells_layOut (by decide +kernel)

theorem tomlParse_written_exts :
    tomlParse digitsOnly (enoughFuel (layOut [] extsLayout)) (layOut [] extsLayout) =
      .ok (extsDoc.fill digitsOnly (Table.empty none false)) :=
  tomlParse_written digitsOnly extsDoc_wellFormed (by decide) extsDoc_writes extsLayout_spells

end witness

end Toml
