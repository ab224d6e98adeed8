import KvmInfo.Toml.Trees

namespace Toml
open Exec Caps

section rules
variable {conf : Bytes} {α : Type} {P : Token → Prop} {Q : α → Token → Prop}

theorem triple_lift {r : Except Error α} (hok : ∀ a, r = .ok a → ∀ s, P s → Q a s)
    (herr : ∀ e, r = .error e → Located conf (.error e)) :
    Triple P (lift r) Q (Located conf) := by
  cases r with
  | ok a => exact triple_pure (hok a rfl)
  | error e => exact triple_throw fun _ _ => herr e rfl

variable {n : ℕ}

theorem failHere_within {msg : String} (h : ∀ t, P t → Within conf n t) :
    Triple P (failHere msg) Q (Located conf) :=
  triple_failHere fun t ht => (h t ht).1

theorem eatToken_within {typ : TokenType} {fline : ℕ}
    (h : ∀ t, P t → Within conf n t ∧ t.tok = typ) :
    Triple P (eatToken typ fline) (fun _ s => Within conf n s) (Located conf) :=
  triple_if (nextToken_within fun t ht => (h t ht.1).1)
    (triple_absurd fun t ht => ht.2 (h t ht.1).2)

theorem eatToken_eats {typ : TokenType} {fline : ℕ} (hs : typ ≠ .STRING) (hn : typ ≠ .NEWLINE)
    (h : ∀ t, P t → Within conf n t ∧ t.tok = typ) :
    Triple P (eatToken typ fline) (fun _ s => Within conf (n - 1) s) (Located conf) :=
  triple_if (nextToken_eats fun t ht =>
      ⟨(h t ht.1).1,ht.2 ▸ hs,(h t ht.1).1.1.not_eof (ht.2 ▸ hn)⟩)
    (triple_absurd fun t ht => ht.2 (h t ht.1).2)

theorem skipNewlines_within (fuel : ℕ) :
    Triple (Within conf n) (skipNewlines fuel) (fun _ s => Within conf n s) (Located conf) := by
  induction fuel with
  | zero => exact triple_throw fun _ _ => trivial
  | succ fuel ih =>
    refine triple_if ?_ (triple_pure fun s hs => hs.1)
    exact (nextToken_within fun t ht => ht.1).bind fun _ => ih

end rules

theorem at_state {P : Token → Prop} {s : Token} (h : P s) : ∀ u, u = s → P u := by
  rintro u rfl
  exact h

section parser
variable (strtod : Bytes → Bool) (conf : Bytes)

def Facing (typ : TokenType) (n : ℕ) (s : Token) : Prop := Within conf n s ∧ s.tok = typ

def Grown (n : ℕ) (key : Option Bytes) (t : Table) (s : Token) : Prop :=
  Within conf n s ∧ t.Valid strtod ∧ t.key = key

def GrownArr (n : ℕ) (key : Option Bytes) (a : Arr) (s : Token) : Prop :=
  Within conf n s ∧ a.Valid strtod ∧ a.key = key

structure ParserSpec (fuel : ℕ) : Prop where
  table : ∀ n t, t.Valid strtod → Triple (Facing conf .LBRACE n) (parseTable strtod fuel t)
    (Grown strtod conf n t.key) (Located conf)
  tableLoop : ∀ n t, t.Valid strtod → Triple (Within conf n) (parseTableLoop strtod fuel t)
    (Grown strtod conf n t.key) (Located conf)
  array : ∀ n a, a.Valid strtod → Triple (Facing conf .LBRACKET n) (parseArray strtod fuel a)
    (GrownArr strtod conf n a.key) (Located conf)
  arrayLoop : ∀ n a, a.Valid strtod → Triple (Within conf n) (parseArrayLoop strtod fuel a)
    (GrownArr strtod conf n a.key) (Located conf)
  element : ∀ n a, a.Valid strtod → Triple (Within conf n) (parseElement strtod fuel a)
    (GrownArr strtod conf n a.key) (Located conf)
  keyval : ∀ n t, t.Valid strtod → Triple (Facing conf .STRING n) (parseKeyval strtod fuel t)
    (Grown strtod conf (n - 1) t.key) (Located conf)

variable {strtod conf} {fuel n : ℕ} {t : Table} {a : Arr}

theorem parseTable_spec (ih : ParserSpec strtod conf fuel) (ht : t.Valid strtod) :
    Triple (Facing conf .LBRACE n) (parseTable strtod (fuel + 1) t) (Grown strtod conf n t.key)
      (Located conf) := by
  rw [parseTable]
  refine (eatToken_within fun _ h => h).bind fun _ => ?_
  refine (ih.tableLoop n t ht).bind fun r => ?_
  refine triple_if ?_ (failHere_within fun s hs => hs.1.1)
  refine triple_fix fun s hs => ?_
  refine (eatToken_within (at_state ⟨hs.1.1,hs.2⟩)).bind fun _ => ?_
  exact triple_pure fun u hu => ⟨hu,hs.1.2⟩

theorem parseTableLoop_spec (ih : ParserSpec strtod conf fuel) (ht : t.Valid strtod) :
    Triple (Within conf n) (parseTableLoop strtod (fuel + 1) t) (Grown strtod conf n t.key)
      (Located conf) := by
  rw [parseTableLoop]
  refine (skipNewlines_within fuel).bind fun _ => ?_
  refine triple_if (triple_pure fun s hs => ⟨hs.1,ht,rfl⟩) ?_
  refine triple_if ?_ (failHere_within fun s hs => hs.1.1)
  refine ((ih.keyval n t ht).pre fun s hs => ⟨hs.1.1,hs.2⟩).bind fun r => ?_
  refine triple_fix fun s hs => ?_
  refine ((skipNewlines_within fuel).pre (at_state (hs.1.mono (Nat.sub_le n 1)))).bind fun _ => ?_
  refine triple_if ?_ (triple_pure fun u hu => ⟨hu.1,hs.2⟩)
  refine (eatToken_within fun u hu => hu).bind fun _ => ?_
  rw [← hs.2.2]
  exact ih.tableLoop n r hs.2.1

theorem parseArray_spec (ih : ParserSpec strtod conf fuel) (ha : a.Valid strtod) :
    Triple (Facing conf .LBRACKET n) (parseArray strtod (fuel + 1) a)
      (GrownArr strtod conf n a.key) (Located conf) := by
  rw [parseArray]
  refine (eatToken_within fun _ h => h).bind fun _ => ?_
  refine (ih.arrayLoop n a ha).bind fun r => ?_
  refine triple_if ?_ (failHere_within fun s hs => hs.1.1)
  refine triple_fix fun s hs => ?_
  refine (eatToken_within (at_state ⟨hs.1.1,hs.2⟩)).bind fun _ => ?_
  exact triple_pure fun u hu => ⟨hu,hs.1.2⟩

theorem parseArrayLoop_spec (ih : ParserSpec strtod conf fuel) (ha : a.Valid strtod) :
    Triple (Within conf n) (parseArrayLoop strtod (fuel + 1) a) (GrownArr strtod conf n a.key)
      (Located conf) := by
  rw [parseArrayLoop]
  refine (skipNewlines_within fuel).bind fun _ => ?_
  refine triple_if (triple_pure fun s hs => ⟨hs.1,ha,rfl⟩) ?_
  refine ((ih.element n a ha).pre fun s hs => hs.1).bind fun r => ?_
  refine triple_fix fun s hs => ?_
  refine ((skipNewlines_within fuel).pre (at_state hs.1)).bind fun _ => ?_
  refine triple_if ?_ (triple_pure fun u hu => ⟨hu.1,hs.2⟩)
  refine (eatToken_within fun u hu => hu).bind fun _ => ?_
  rw [← hs.2.2]
  exact ih.arrayLoop n r hs.2.1

theorem parseElement_spec (ih : ParserSpec strtod conf fuel) (ha : a.Valid strtod) :
    Triple (Within conf n) (parseElement strtod (fuel + 1) a) (GrownArr strtod conf n a.key)
      (Located conf) := by
  have hfail : ∀ {s : Token} {msg : String}, Within conf n s →
      Triple (fun u => u = s) (failHere msg) (GrownArr strtod conf n a.key) (Located conf) :=
    fun hs => failHere_within (at_state hs)
  rw [parseElement]
  refine triple_get fun s hs => ?_
  cases htok : s.tok with
  | STRING =>
    simp only []
    split_ifs with hkind
    · exact hfail hs
    · rw [not_not] at hkind
      refine triple_get fun u hu => ?_
      subst hu
      cases hpush : pushVal strtod (a.setKind .value) u.text with
      | none => exact hfail hs
      | some r =>
        have hr := pushVal_ok ha hkind hpush
        exact (eatToken_within (at_state ⟨hs,htok⟩)).bind fun _ => triple_pure fun v hv => ⟨hv,hr⟩
  | LBRACKET =>
    simp only []
    split_ifs with hkind
    · exact hfail hs
    · rw [not_not] at hkind
      refine ((ih.array n _ (Arr.valid_empty none)).pre (at_state ⟨hs,htok⟩)).bind fun r => ?_
      exact triple_pure fun u hu => ⟨hu.1,pushArr_valid ha hkind hu.2.1,setKind_key _⟩
  | LBRACE =>
    simp only []
    split_ifs with hkind
    · exact hfail hs
    · rw [not_not] at hkind
      refine ((ih.table n _ (Table.valid_empty none false)).pre (at_state ⟨hs,htok⟩)).bind
        fun r => ?_
      exact triple_pure fun u hu => ⟨hu.1,pushTab_valid ha hkind hu.2.1,setKind_key _⟩
  | INVALID => exact hfail hs
  | DOT => exact hfail hs
  | COMMA => exact hfail hs
  | EQUAL => exact hfail hs
  | RBRACE => exact hfail hs
  | NEWLINE => exact hfail hs
  | RBRACKET => exact hfail hs

theorem parseKeyval_spec (ih : ParserSpec strtod conf fuel) (ht : t.Valid strtod) :
    Triple (Facing conf .STRING n) (parseKeyval strtod (fuel + 1) t)
      (Grown strtod conf (n - 1) t.key) (Located conf) := by
  rw [parseKeyval]
  refine triple_get fun key hkey => ?_
  rw [if_neg (not_not.mpr hkey.2)]
  refine (eatToken_within (at_state hkey)).bind fun _ => ?_
  refine triple_if (failHere_within fun s hs => hs.1) ?_
  refine (eatToken_eats (n := n) (by decide) (by decide)
    fun s hs => ⟨hs.1,not_not.mp hs.2⟩).bind fun _ => ?_
  refine triple_get fun s hs => ?_
  have hfail : Triple (fun u => u = s) (failHere "syntax error")
      (Grown strtod conf (n - 1) t.key) (Located conf) :=
    failHere_within (at_state hs)
  cases htok : s.tok with
  | STRING =>
    refine triple_get fun u hu => ?_
    subst hu
    refine (triple_lift (Q := fun r v => Facing conf .STRING (n - 1) v ∧ r.Valid strtod ∧
      r.key = t.key) (fun r hr v hv => ⟨hv ▸ ⟨hs,htok⟩,createKeyval_ok ht hr⟩)
      fun e he => located (createKeyval_error he) hkey.1.1).bind fun r => ?_
    refine triple_fix fun v hv => ?_
    exact (eatToken_within (at_state hv.1)).bind fun _ => triple_pure fun w hw => ⟨hw,hv.2⟩
  | LBRACKET =>
    refine (triple_lift (Q := fun r v => Facing conf .LBRACKET (n - 1) v ∧
      createKeyarrayInTable t key false = .ok r) (fun r hr v hv => ⟨hv ▸ ⟨hs,htok⟩,hr⟩)
      fun e he => located (createKeyarray_error he) hkey.1.1).bind fun r => ?_
    refine triple_fix fun v hv => ?_
    obtain ⟨t',dest⟩ := r
    obtain ⟨hr,hrkey,hdest,hsome⟩ := createKeyarray_ok ht hv.2
    obtain ⟨i,rfl⟩ := Option.ne_none_iff_exists'.mp (hsome rfl)
    obtain ⟨b,hb⟩ := hdest i rfl
    have hvb := hr.arr b (List.mem_of_getElem? hb)
    simp only [pointer,pure_bind,hb]
    refine ((ih.array (n - 1) b hvb).pre (at_state hv.1)).bind fun r => ?_
    exact triple_pure fun w hw => ⟨hw.1,valid_setArr hr hb hw.2.1 hw.2.2,hrkey⟩
  | LBRACE =>
    refine (triple_lift (Q := fun r v => Facing conf .LBRACE (n - 1) v ∧
      createKeytableInTable t key = .ok r) (fun r hr v hv => ⟨hv ▸ ⟨hs,htok⟩,hr⟩)
      fun e he => located (createKeytable_error he) hkey.1.1).bind fun r => ?_
    refine triple_fix fun v hv => ?_
    obtain ⟨t',i⟩ := r
    obtain ⟨hr,hrkey,b,hb⟩ := createKeytable_ok ht hv.2
    have hvb := hr.tab b (List.mem_of_getElem? hb)
    simp only [pointer,pure_bind,hb]
    refine ((ih.table (n - 1) b hvb).pre (at_state hv.1)).bind fun r => ?_
    exact triple_pure fun w hw => ⟨hw.1,valid_setTab hr hb hw.2.1 hw.2.2,hrkey⟩
  | INVALID => exact hfail
  | DOT => exact hfail
  | COMMA => exact hfail
  | EQUAL => exact hfail
  | RBRACE => exact hfail
  | NEWLINE => exact hfail
  | RBRACKET => exact hfail

theorem parser_spec (strtod : Bytes → Bool) (conf : Bytes) (fuel : ℕ) :
    ParserSpec strtod conf fuel := by
  induction fuel with
  | zero =>
    have hstop : ∀ {α : Type} {P : Token → Prop} {Q : α → Token → Prop},
        Triple P (throw .outOfFuel : Parser α) Q (Located conf) :=
      triple_throw fun _ _ => trivial
    exact ⟨fun _ _ _ => hstop,fun _ _ _ => hstop,fun _ _ _ => hstop,fun _ _ _ => hstop,
      fun _ _ _ => hstop,fun _ _ _ => hstop⟩
  | succ fuel ih =>
    exact ⟨fun _ _ ht => parseTable_spec ih ht,fun _ _ ht => parseTableLoop_spec ih ht,
      fun _ _ ha => parseArray_spec ih ha,fun _ _ ha => parseArrayLoop_spec ih ha,
      fun _ _ ha => parseElement_spec ih ha,fun _ _ ht => parseKeyval_spec ih ht⟩

end parser

section select
variable (strtod : Bytes → Bool) (conf : Bytes)

def PathOf (tpath : List (Bytes × Token)) : Prop :=
  ∀ e ∈ tpath, IsName (some e.1) ∧ e.2.At conf

def Selected (n : ℕ) (r : Table × Path) (s : Token) : Prop :=
  Within conf n s ∧ r.1.Valid strtod ∧ ∃ t, r.1.find r.2 = some t

variable {strtod conf} {n lineno : ℕ} {root : Table} {curtab : Path}
variable {tpath : List (Bytes × Token)}

theorem fillTabpath_spec {room : ℕ} (hline : 1 ≤ lineno ∧ lineno ≤ lines conf)
    (hpath : PathOf conf tpath) :
    Triple (Within conf n) (fillTabpath room lineno tpath)
      (fun r s => Within conf n s ∧ PathOf conf r) (Located conf) := by
  have hfail : ∀ {α : Type} {P : Token → Prop} {Q : α → Token → Prop} {msg : Bytes},
      Triple P (fail (.syntaxError lineno msg)) Q (Located conf) :=
    triple_fail fun _ _ _ hn => by cases hn; exact hline
  induction room generalizing tpath with
  | zero => exact hfail
  | succ room ih =>
    refine triple_get fun tok htok => ?_
    split_ifs with hstr
    · exact hfail
    · refine (triple_lift (Q := fun key s => Within conf n s ∧ IsName (some key))
        (fun key hkey s hs => ⟨at_state htok s hs,normalizeKey_name hkey⟩)
        fun e he => located (normalizeKey_error he) htok.1).bind fun key => ?_
      refine triple_fix fun s hs => ?_
      have hpath' : PathOf conf (tpath ++ [(key,tok)]) := by
        intro e he
        rcases List.mem_append.mp he with he | he
        · exact hpath e he
        · rw [List.mem_singleton.mp he]
          exact ⟨hs.2,htok.1⟩
      refine (nextToken_within (n := n) (at_state hs.1)).bind fun _ => ?_
      refine triple_if (triple_pure fun u hu => ⟨hu.1,hpath'⟩) ?_
      refine triple_if hfail ?_
      exact (nextToken_within fun u hu => hu.1.1).bind fun _ => ih hpath'

theorem walkStep_spec {key : Bytes} {tok : Token} (hroot : root.Valid strtod)
    (hcur : ∃ t, root.find curtab = some t) (hname : IsName (some key)) (htok : tok.At conf) :
    Triple (Within conf n) (walkStep root curtab key tok) (Selected strtod conf n)
      (Located conf) := by
  obtain ⟨t,ht⟩ := hcur
  have hvt := find_valid hroot ht
  simp only [walkStep,ht,pointer,pure_bind]
  cases hcheck : checkKey t key with
  | none =>
    have hf := valid_pushTab true hvt hname (checkKey_none hcheck)
    refine triple_pure fun s hs => ⟨hs,(update_valid hroot ht hf rfl).1,
      Table.empty (some key) true,?_⟩
    rw [find_append (update_find ht),Table.find,List.getElem?_concat_length]
    rfl
  | some entry =>
    cases entry with
    | val i => exact triple_fail fun _ _ => located rfl htok
    | tab i =>
      obtain ⟨s,hs,-⟩ := checkKey_tab hcheck
      refine triple_pure fun u hu => ⟨hu,hroot,s,?_⟩
      rw [find_append ht,Table.find,hs]
      rfl
    | arr i =>
      obtain ⟨a,ha,-⟩ := checkKey_arr hcheck
      simp only [ha,pure_bind]
      split_ifs with hkind hnelem
      · exact triple_fail fun _ _ => rfl
      · rw [not_not] at hkind
        have hshape := (hvt.arr a (List.mem_of_getElem? ha)).shaped
        simp only [Arr.Shaped,hkind] at hshape
        have hlen := List.length_pos_iff.mpr hshape.2.2
        rw [Arr.nelem] at hnelem
        omega
      · rw [not_not] at hkind
        have hshape := (hvt.arr a (List.mem_of_getElem? ha)).shaped
        simp only [Arr.Shaped,hkind] at hshape
        have hn : a.nelem = a.tab.length := by simp [Arr.nelem,hshape.1,hshape.2.1]
        obtain ⟨s,hs⟩ : ∃ s, a.tab[a.nelem - 1]? = some s :=
          ⟨_,List.getElem?_eq_getElem (by omega)⟩
        refine triple_pure fun u hu => ⟨hu,hroot,s,?_⟩
        rw [find_append ht,Table.find,ha]
        simp only [bind,Option.bind,hs]
        rfl

theorem walkTabpath_spec (hroot : root.Valid strtod) (hcur : ∃ t, root.find curtab = some t)
    (hpath : PathOf conf tpath) :
    Triple (Within conf n) (walkTabpath root curtab tpath) (Selected strtod conf n)
      (Located conf) := by
  induction tpath generalizing root curtab with
  | nil => exact triple_pure fun s hs => ⟨hs,hroot,hcur⟩
  | cons e tpath ih =>
    obtain ⟨hname,htok⟩ := hpath e List.mem_cons_self
    refine (walkStep_spec hroot hcur hname htok).bind fun r => ?_
    refine triple_fix fun s hs => ?_
    exact (ih hs.2.1 hs.2.2 fun e' he' => hpath e' (List.mem_cons_of_mem e he')).pre (at_state hs.1)

theorem selectTable_spec {z : Token} (hroot : root.Valid strtod)
    (hcur : ∃ t, root.find curtab = some t) (hz : z.At conf) :
    Triple (Within conf n) (selectTable root curtab z) (Selected strtod conf n) (Located conf) := by
  obtain ⟨t,ht⟩ := hcur
  simp only [selectTable,ht,pointer,pure_bind]
  refine (triple_lift (Q := fun r s => Within conf n s ∧ createKeytableInTable t z = .ok r)
    (fun r hr s hs => ⟨hs,hr⟩) fun e he => located (createKeytable_error he) hz).bind fun r => ?_
  refine triple_pure fun s hs => ?_
  obtain ⟨hr,hkey,dest,hdest⟩ := createKeytable_ok (find_valid hroot ht) hs.2
  refine ⟨hs.1,(update_valid hroot ht hr hkey).1,dest,?_⟩
  rw [find_append (update_find ht),Table.find,hdest]
  rfl

theorem selectElement_spec {z : Token} (hroot : root.Valid strtod)
    (hcur : ∃ t, root.find curtab = some t) (hz : z.At conf) :
    Triple (Within conf n) (selectElement root curtab z) (Selected strtod conf n)
      (Located conf) := by
  obtain ⟨t,ht⟩ := hcur
  simp only [selectElement,ht,pointer,pure_bind]
  refine (triple_lift (Q := fun r s => Within conf n s ∧ createKeyarrayInTable t z true = .ok r)
    (fun r hr s hs => ⟨hs,hr⟩) fun e he => located (createKeyarray_error he) hz).bind fun r => ?_
  refine triple_fix fun s hs => ?_
  obtain ⟨t',dest⟩ := r
  obtain ⟨hr,hkey,hdest,-⟩ := createKeyarray_ok (find_valid hroot ht) hs.2
  cases dest with
  | none => exact triple_fail fun _ _ => located rfl hz
  | some i =>
    obtain ⟨a,ha⟩ := hdest i rfl
    have hva := hr.arr a (List.mem_of_getElem? ha)
    simp only [ha,pure_bind]
    split_ifs with hkind
    · exact triple_fail fun _ _ => located rfl hz
    · rw [not_not] at hkind
      have hnew := pushTab_valid hva hkind (Table.valid_empty (some anon) false)
      have hi := (List.getElem?_eq_some_iff.mp ha).1
      have hn : (a.setKind .table).nelem = (a.setKind .table).tab.length := by
        have hshape := hnew.shaped
        simp only [Arr.Shaped,hkind] at hshape
        simp [Arr.nelem,hshape.1,hshape.2.1]
      refine triple_pure fun u hu => ⟨at_state hs.1 u hu,(update_valid hroot ht
        (valid_setArr hr ha hnew (setKind_key _)) hkey).1,Table.empty (some anon) false,?_⟩
      rw [find_append (update_find ht),Table.find,setArr,List.getElem?_set_self hi]
      simp only [bind,Option.bind,hn,List.getElem?_concat_length]
      rfl

theorem selectLast_spec {double : Bool} {z : Token} (hroot : root.Valid strtod)
    (hcur : ∃ t, root.find curtab = some t) (hz : z.At conf) :
    Triple (Within conf n) (selectLast double root curtab z) (Selected strtod conf n)
      (Located conf) := by
  cases double with
  | true => exact selectElement_spec hroot hcur hz
  | false => exact selectTable_spec hroot hcur hz

theorem expect_spec {typ : TokenType} {fline : ℕ} {msg : String} :
    Triple (Within conf n) (expect typ fline msg) (fun _ s => Within conf n s) (Located conf) :=
  triple_if (failHere_within fun _ hs => hs.1)
    (eatToken_within fun _ hs => ⟨hs.1,not_not.mp hs.2⟩)

theorem optionally_spec {c : Bool} {m : Parser Unit} {P : Token → Prop}
    (h : Triple P m (fun _ => P) (Located conf)) :
    Triple P (optionally c m) (fun _ => P) (Located conf) := by
  cases c with
  | true => exact h
  | false => exact triple_pure fun _ hs => hs

theorem closeSelect_spec {double : Bool} :
    Triple (Within conf n) (closeSelect double) (fun _ s => Within conf n s) (Located conf) := by
  refine expect_spec.bind fun _ => ?_
  refine (optionally_spec expect_spec).bind fun _ => ?_
  exact triple_if (failHere_within fun _ hs => hs.1) (triple_pure fun _ hs => hs.1)

theorem parseSelect_spec (hroot : root.Valid strtod) :
    Triple (Facing conf .LBRACKET n) (parseSelect root) (Selected strtod conf (n - 1))
      (Located conf) := by
  refine triple_if (triple_absurd fun s hs => hs.2 hs.1.2) ?_
  refine (nextToken_eats (n := n) fun s hs =>
    ⟨hs.1.1,by simp [hs.1.2],hs.1.1.1.not_eof (by simp [hs.1.2])⟩).bind fun _ => ?_
  refine triple_get fun s hs => ?_
  refine ((optionally_spec (nextToken_within fun u hu => hu)).pre (at_state hs)).bind fun _ => ?_
  refine triple_get fun u hu => ?_
  refine ((fillTabpath_spec hu.1.line (fun e he => by cases he)).pre (at_state hu)).bind
    fun tpath => ?_
  refine triple_fix fun v hv => ?_
  cases hlast : tpath.getLast? with
  | none => exact triple_fail fun _ _ _ hn => by cases hn; exact hu.1.line
  | some z =>
    have hz := hv.2 z (List.mem_of_getLast? hlast)
    refine ((walkTabpath_spec hroot ⟨root,rfl⟩ fun e he =>
      hv.2 e (List.mem_of_mem_dropLast he)).pre (at_state hv.1)).bind fun r => ?_
    refine triple_fix fun w hw => ?_
    refine ((selectLast_spec hw.2.1 hw.2.2 hz.2).pre (at_state hw.1)).bind fun r' => ?_
    refine triple_fix fun x hx => ?_
    exact (closeSelect_spec.pre (at_state hx.1)).bind fun _ => triple_pure fun y hy => ⟨hy,hx.2⟩

theorem parseLoop_spec (fuel : ℕ) (hroot : root.Valid strtod)
    (hcur : ∃ t, root.find curtab = some t) :
    Triple (Within conf n) (parseLoop strtod fuel root curtab) (fun r _ => r.Valid strtod)
      (Located conf) := by
  induction fuel generalizing root curtab n with
  | zero => exact triple_throw fun _ _ => trivial
  | succ fuel ih =>
    have hfail : ∀ {s : Token}, Within conf n s →
        Triple (fun u => u = s) (failHere "syntax error") (fun r _ => Table.Valid strtod r)
          (Located conf) :=
      fun hs => failHere_within (at_state hs)
    refine triple_get fun s hs => ?_
    split_ifs
    · exact triple_pure fun _ _ => hroot
    · cases htok : s.tok with
      | NEWLINE =>
        exact (nextToken_within (n := n) (at_state hs)).bind fun _ => ih hroot hcur
      | STRING =>
        obtain ⟨t,ht⟩ := hcur
        simp only [ht,pointer,pure_bind]
        refine (((parser_spec strtod conf fuel).keyval n t (find_valid hroot ht)).pre
          (at_state ⟨hs,htok⟩)).bind fun r => ?_
        refine triple_if (failHere_within fun u hu => hu.1.1) ?_
        refine triple_fix fun u hu => ?_
        refine (eatToken_within (at_state ⟨hu.1.1,not_not.mp hu.2⟩)).bind fun _ => ?_
        exact ih (update_valid hroot ht hu.1.2.1 hu.1.2.2).1 ⟨r,update_find ht⟩
      | LBRACKET =>
        refine ((parseSelect_spec hroot).pre (at_state ⟨hs,htok⟩)).bind fun r => ?_
        exact triple_fix fun u hu => (ih hu.2.1 hu.2.2).pre (at_state hu.1)
      | INVALID => exact hfail hs
      | DOT => exact hfail hs
      | COMMA => exact hfail hs
      | EQUAL => exact hfail hs
      | LBRACE => exact hfail hs
      | RBRACE => exact hfail hs
      | RBRACKET => exact hfail hs

theorem parse_start (conf : Bytes) (fuel : ℕ) (hroot : root.Valid strtod) :
    Triple (fun s => s = startToken conf) (parseLoop strtod fuel root [])
      (fun r _ => r.Valid strtod) (Located conf) := by
  cases fuel with
  | zero => exact triple_throw fun _ _ => trivial
  | succ fuel =>
    refine triple_get fun s hs => ?_
    subst hs
    exact (nextToken_at (startToken_at conf)).bind fun _ => parseLoop_spec fuel hroot ⟨root,rfl⟩

end select

theorem tomlParse_verdict (strtod : Bytes → Bool) (fuel : ℕ) (conf : Bytes) :
    (∀ root, tomlParse strtod fuel conf = .ok root → root.Valid strtod) ∧
      ∀ stop, tomlParse strtod fuel conf = .error stop → Located (cString conf) stop := by
  have hroot : (Table.empty none false).Valid strtod := Table.valid_empty none false
  obtain ⟨hok,herr⟩ := parse_start (cString conf) fuel hroot _ rfl
  rw [tomlParse]
  cases hrun : parseLoop strtod fuel (Table.empty none false) [] (startToken (cString conf)) with
  | ok r =>
    refine ⟨?_,fun stop h => by cases h⟩
    intro root h
    cases h
    exact hok r.1 r.2 hrun
  | error e =>
    refine ⟨fun root h => (by cases h),?_⟩
    intro stop h
    cases h
    exact herr _ hrun

end Toml
