import KvmInfo.Toml.Headers

namespace Toml
open Caps

def element {α : Type} (l : List α) (i : ℤ) : Except Fault α :=
  if i < 0 then .error .outOfBounds
  else
    match l[i.toNat]? with
    | none => .error .outOfBounds
    | some x => .ok x

def tomlKeyIn (tab : Table) (keyidx : ℤ) : Except Fault (Option Bytes) :=
  if keyidx < tab.kval.length then (element tab.kval keyidx).map fun e => some e.key
  else
    let keyidx := keyidx - tab.kval.length
    if keyidx < tab.arr.length then (element tab.arr keyidx).map Arr.key
    else
      let keyidx := keyidx - tab.arr.length
      if keyidx < tab.tab.length then (element tab.tab keyidx).map Table.key else .ok none

def tomlRawIn (tab : Table) (key : Bytes) : Option Bytes :=
  (tab.kval.find? fun e => e.key = key).map Keyval.val

def tomlArrayIn (tab : Table) (key : Bytes) : Option Arr :=
  tab.arr.find? fun a => a.key = some key

def tomlTableIn (tab : Table) (key : Bytes) : Option Table :=
  tab.tab.find? fun t => t.key = some key

def tomlRawAt (arr : Arr) (idx : ℤ) : Option Bytes :=
  if arr.kind ≠ .value then none
  else if ¬(0 ≤ idx ∧ idx < arr.nelem) then none
  else arr.val[idx.toNat]?

def tomlArrayAt (arr : Arr) (idx : ℤ) : Option Arr :=
  if arr.kind ≠ .array then none
  else if ¬(0 ≤ idx ∧ idx < arr.nelem) then none
  else arr.arr[idx.toNat]?

def tomlTableAt (arr : Arr) (idx : ℤ) : Option Table :=
  if arr.kind ≠ .table then none
  else if ¬(0 ≤ idx ∧ idx < arr.nelem) then none
  else arr.tab[idx.toNat]?

structure Answer where
  raw : Option Bytes
  arr : Option Arr
  tab : Option Table

def Answer.none : Answer := ⟨.none,.none,.none⟩

def Answer.or (x y : Answer) : Answer := ⟨x.raw.or y.raw,x.arr.or y.arr,x.tab.or y.tab⟩

theorem Answer.none_or (x : Answer) : Answer.none.or x = x := rfl

theorem Answer.or_none (x : Answer) : x.or .none = x := by
  rw [Answer.or,Answer.none,Option.or_none,Option.or_none,Option.or_none]

def Table.answer (t : Table) (key : Bytes) : Answer :=
  ⟨tomlRawIn t key,tomlArrayIn t key,tomlTableIn t key⟩

def Arr.answer (a : Arr) (idx : ℤ) : Answer := ⟨tomlRawAt a idx,tomlArrayAt a idx,tomlTableAt a idx⟩

def Table.Lists (t : Table) (names : List Bytes) : Prop :=
  (∀ key ∉ names, t.answer key = .none) ∧
    ∃ order : List Bytes, order.Perm names ∧
      ∀ i, tomlKeyIn t i = if i < 0 then .error .outOfBounds else .ok order[i.toNat]?

def Values.length : Values → ℕ
  | .nil => 0
  | .cons _ vs => vs.length + 1

def Tables.length : Tables → ℕ
  | .nil => 0
  | .cons _ _ ts => ts.length + 1

def Arr.Counts (a : Arr) (n : ℕ) : Prop :=
  a.nelem = n ∧ ∀ i : ℤ, ¬(0 ≤ i ∧ i < n) → a.answer i = .none

mutual

def Value.Shown : Value → Answer → Prop
  | .raw v, answer => answer = ⟨some v,none,none⟩
  | .array vs, answer =>
      ∃ arr : Arr, answer = ⟨none,some arr,none⟩ ∧ arr.Counts vs.length ∧ vs.Shown arr 0
  | .table es, answer => ∃ t : Table, answer = ⟨none,none,some t⟩ ∧ t.Lists es.names ∧ es.Shown t

def Values.Shown : Values → Arr → ℕ → Prop
  | .nil, _, _ => True
  | .cons v vs, arr, i => v.Shown (arr.answer i) ∧ vs.Shown arr (i + 1)

def Entries.Shown : Entries → Table → Prop
  | .nil, _ => True
  | .cons key v es, t => v.Shown (t.answer key) ∧ es.Shown t

end

mutual

def Sections.Shown : Sections → Table → Prop
  | .nil, _ => True
  | .table key es sub ss, t =>
      (∃ u : Table, t.answer key = ⟨none,none,some u⟩ ∧ u.Lists (es.names ++ sub.names) ∧ es.Shown u ∧
        sub.Shown u) ∧ ss.Shown t
  | .implied key sub ss, t =>
      (∃ u : Table, t.answer key = ⟨none,none,some u⟩ ∧ u.Lists sub.names ∧ sub.Shown u) ∧ ss.Shown t
  | .array key ts ss, t =>
      (∃ arr : Arr, t.answer key = ⟨none,some arr,none⟩ ∧ arr.Counts ts.length ∧ ts.Shown arr 0) ∧
        ss.Shown t

def Tables.Shown : Tables → Arr → ℕ → Prop
  | .nil, _, _ => True
  | .cons es sub ts, arr, i =>
      (∃ u : Table, arr.answer i = ⟨none,none,some u⟩ ∧ u.Lists (es.names ++ sub.names) ∧ es.Shown u ∧
        sub.Shown u) ∧ ts.Shown arr (i + 1)

end

section tables
variable {t u : Table} {a : Arr} {key k : Bytes}

theorem answer_fresh (h : some key ∉ t.keys) : t.answer key = .none := by
  obtain ⟨hval,harr,htab⟩ := fresh_lookups h
  have hval' : t.kval.find? (fun e => e.key = key) = none :=
    List.find?_eq_none.mpr fun e he => by simp [hval e he]
  have harr' : tomlArrayIn t key = none := List.find?_eq_none.mpr fun a ha => by simp [harr a ha]
  have htab' : tomlTableIn t key = none := List.find?_eq_none.mpr fun t ht => by simp [htab t ht]
  rw [Table.answer,tomlRawIn,hval',harr',htab']
  rfl

theorem answer_put {t' : Table} {x : Answer} (hnew : some key ∉ t.keys)
    (hput : t'.answer k = (t.answer k).or (if key = k then x else .none)) :
    t'.answer k = if key = k then x else t.answer k := by
  rw [hput]
  split_ifs with hk
  · rw [← hk,answer_fresh hnew,Answer.none_or]
  · exact Answer.or_none _

theorem answer_pushVal {v : Bytes} (hnew : some key ∉ t.keys) :
    ({ t with kval := t.kval ++ [⟨key,v⟩] } : Table).answer k =
      if key = k then ⟨some v,none,none⟩ else t.answer k := by
  apply answer_put hnew
  rw [Table.answer,tomlRawIn,List.find?_append,List.find?_singleton,Option.map_or]
  by_cases hk : key = k
  · simp [hk,Answer.or,Table.answer,tomlRawIn,tomlArrayIn,tomlTableIn]
  · simp [hk,Answer.or_none,Table.answer,tomlRawIn,tomlArrayIn,tomlTableIn]

theorem answer_pushArr (hnew : some key ∉ t.keys) (ha : a.key = some key) :
    ({ t with arr := t.arr ++ [a] } : Table).answer k =
      if key = k then ⟨none,some a,none⟩ else t.answer k := by
  apply answer_put hnew
  rw [Table.answer,tomlArrayIn,List.find?_append,List.find?_singleton,ha]
  by_cases hk : key = k
  · simp [hk,Answer.or,Table.answer,tomlRawIn,tomlArrayIn,tomlTableIn]
  · simp [hk,Answer.or_none,Table.answer,tomlRawIn,tomlArrayIn,tomlTableIn]

theorem answer_pushTab (hnew : some key ∉ t.keys) (hu : u.key = some key) :
    ({ t with tab := t.tab ++ [u] } : Table).answer k =
      if key = k then ⟨none,none,some u⟩ else t.answer k := by
  apply answer_put hnew
  rw [Table.answer,tomlTableIn,List.find?_append,List.find?_singleton,hu]
  by_cases hk : key = k
  · simp [hk,Answer.or,Table.answer,tomlRawIn,tomlArrayIn,tomlTableIn]
  · simp [hk,Answer.or_none,Table.answer,tomlRawIn,tomlArrayIn,tomlTableIn]

theorem pushTab_perm (hu : u.key = some key) :
    ({ t with tab := t.tab ++ [u] } : Table).keys.Perm (some key :: t.keys) := by
  rw [← hu]
  simp only [Table.keys,List.map_append,List.map_cons,List.map_nil,← List.append_assoc]
  exact List.perm_append_singleton _ _

theorem pushArr_perm (ha : a.key = some key) :
    ({ t with arr := t.arr ++ [a] } : Table).keys.Perm (some key :: t.keys) := by
  rw [← ha]
  simp only [Table.keys,List.map_append,List.map_cons,List.map_nil,List.append_assoc,
    List.singleton_append]
  rw [← List.append_assoc,← List.append_assoc]
  exact List.perm_middle

theorem element_map {α β : Type} (f : α → β) {l : List α} {i : ℤ} {n : ℕ} (hi : i = n)
    (hn : n < l.length) : (element l i).map f = .ok (f l[n]) := by
  have hpos : ¬i < 0 := by omega
  rw [element,if_neg hpos,hi,Int.toNat_natCast,List.getElem?_eq_getElem hn]
  rfl

-- Below zero the first bound lets the index through.
theorem tomlKeyIn_negative (t : Table) {i : ℤ} (hi : i < 0) :
    tomlKeyIn t i = .error .outOfBounds := by
  have hlow : i < t.kval.length := by omega
  rw [tomlKeyIn,if_pos hlow,element,if_pos hi]
  rfl

theorem tomlKeyIn_keys (t : Table) (i : ℕ) : tomlKeyIn t i = .ok (t.keys[i]?).join := by
  have hval : (t.kval.map fun e => some e.key).length = t.kval.length := List.length_map _
  have harr : (t.arr.map Arr.key).length = t.arr.length := List.length_map _
  rw [tomlKeyIn,Table.keys,List.append_assoc]
  by_cases h1 : i < t.kval.length
  · rw [if_pos (by omega),element_map _ rfl h1,List.getElem?_append_left (by omega),
      List.getElem?_map,List.getElem?_eq_getElem h1]
    rfl
  · rw [if_neg (by omega),List.getElem?_append_right (by omega),hval]
    dsimp only
    by_cases h2 : i - t.kval.length < t.arr.length
    · rw [if_pos (by omega),element_map _ (by omega) h2,List.getElem?_append_left (by omega),
        List.getElem?_map,List.getElem?_eq_getElem h2]
      rfl
    · rw [if_neg (by omega),List.getElem?_append_right (by omega),harr,List.getElem?_map]
      by_cases h3 : i - t.kval.length - t.arr.length < t.tab.length
      · rw [if_pos (by omega),element_map _ (by omega) h3,List.getElem?_eq_getElem h3]
        rfl
      · rw [if_neg (by omega),List.getElem?_eq_none (not_lt.mp h3)]
        rfl

theorem lists_of_keys {names : List Bytes} (h : t.keys.Perm (names.map some)) : t.Lists names := by
  have hmem : ∀ k ∈ t.keys, ∃ name ∈ names, some name = k :=
    fun k hk => List.mem_map.mp (h.mem_iff.mp hk)
  have hsome : ∀ l : List (Option Bytes), (∀ k ∈ l, k.isSome = true) →
      ∀ i : ℕ, (l[i]?).join = (l.filterMap id)[i]? := by
    intro l hl
    induction l with
    | nil => simp
    | cons k l ih =>
      obtain ⟨hk,hrest⟩ := List.forall_mem_cons.mp hl
      obtain ⟨name,rfl⟩ := Option.isSome_iff_exists.mp hk
      intro i
      cases i with
      | zero => rfl
      | succ i => exact ih hrest i
  constructor
  · intro key hkey
    apply answer_fresh
    intro hk
    obtain ⟨name,hname,heq⟩ := hmem _ hk
    cases heq
    exact hkey hname
  · refine ⟨t.keys.filterMap id,by simpa using h.filterMap id,?_⟩
    intro i
    split_ifs with hi
    · exact tomlKeyIn_negative t hi
    · have hcast : ((i.toNat : ℕ) : ℤ) = i := Int.toNat_of_nonneg (not_lt.mp hi)
      rw [← hcast,tomlKeyIn_keys,Int.toNat_natCast]
      apply congrArg Except.ok
      apply hsome
      intro k hk
      obtain ⟨name,-,rfl⟩ := hmem k hk
      rfl

end tables

def Value.answer (strtod : Bytes → Bool) (key : Option Bytes) : Value → Answer
  | .raw v => ⟨some v,none,none⟩
  | .array vs => ⟨none,some (vs.fill strtod (Arr.empty key)),none⟩
  | .table es => ⟨none,none,some (es.fill strtod (Table.empty key false))⟩

section entries
variable {strtod : Bytes → Bool} {t : Table} {key k : Bytes}

theorem answer_addTo (v : Value) (hnew : some key ∉ t.keys) :
    (v.addTo strtod key t).answer k = if key = k then v.answer strtod (some key) else t.answer k := by
  cases v with
  | raw v => exact answer_pushVal hnew
  | array vs => exact answer_pushArr hnew (Values.fill_key vs _)
  | table es => exact answer_pushTab hnew (Entries.fill_key es _)

theorem addTo_perm (v : Value) : (v.addTo strtod key t).keys.Perm (some key :: t.keys) := by
  cases v with
  | raw v =>
    simp only [Value.addTo,Table.keys,List.map_append,List.map_cons,List.map_nil,List.append_assoc,
      List.singleton_append]
    exact List.perm_middle
  | array vs => exact pushArr_perm (Values.fill_key vs _)
  | table es => exact pushTab_perm (Entries.fill_key es _)

theorem fill_perm (strtod : Bytes → Bool) : ∀ (es : Entries) (t : Table),
    (es.fill strtod t).keys.Perm (es.names.map some ++ t.keys)
  | .nil, t => .refl _
  | .cons key v es, t => by
    rw [Entries.fill,Entries.names,List.map_cons,List.cons_append]
    exact (fill_perm strtod es _).trans (((addTo_perm v).append_left _).trans List.perm_middle)

theorem answer_fill : ∀ (es : Entries) (t : Table), es.names.Nodup →
    (∀ k ∈ es.names, some k ∉ t.keys) → k ∉ es.names → (es.fill strtod t).answer k = t.answer k
  | .nil, t, _, _, _ => rfl
  | .cons key v es, t, hnodup, hnew, hk => by
    obtain ⟨hkey,hnodup⟩ := List.nodup_cons.mp hnodup
    rw [Entries.names,List.mem_cons,not_or] at hk
    rw [Entries.fill,answer_fill es _ hnodup (fresh_addTo hkey hnew) hk.2,
      answer_addTo v (hnew key List.mem_cons_self),if_neg (Ne.symm hk.1)]

end entries

section arrays
variable {strtod : Bytes → Bool} {a : Arr} {kind : Kind} {i : ℤ}

def Arr.Of (a : Arr) (kind : Kind) : Prop :=
  (a.kind = kind ∨ a.nelem = 0) ∧ (kind ≠ .value → a.val = []) ∧
    (kind ≠ .array → a.arr = []) ∧ (kind ≠ .table → a.tab = [])

def elemAt {α : Type} (l : List α) (i : ℤ) : Option α :=
  if 0 ≤ i ∧ i < l.length then l[i.toNat]? else none

theorem elemAt_nil {α : Type} : elemAt ([] : List α) i = none := by
  rw [elemAt]
  split_ifs <;> rfl

theorem elemAt_concat {α : Type} (l : List α) (x : α) :
    elemAt (l ++ [x]) i = if i = l.length then some x else elemAt l i := by
  rw [elemAt,elemAt,List.length_append,List.length_singleton]
  by_cases hi : i = l.length
  · rw [if_pos ⟨by omega,by omega⟩,if_pos hi,hi,Int.toNat_natCast,List.getElem?_concat_length]
  · rw [if_neg hi]
    by_cases hlt : 0 ≤ i ∧ i < l.length
    · rw [if_pos ⟨hlt.1,by omega⟩,if_pos hlt,List.getElem?_append_left (by omega)]
    · rw [if_neg (by omega),if_neg hlt]

theorem of_cases (h : a.Of kind) :
    (a.val = [] ∧ a.arr = [] ∧ a.tab = []) ∨
      (a.kind = .value ∧ a.nelem = a.val.length ∧ a.arr = [] ∧ a.tab = []) ∨
      (a.kind = .array ∧ a.nelem = a.arr.length ∧ a.val = [] ∧ a.tab = []) ∨
      (a.kind = .table ∧ a.nelem = a.tab.length ∧ a.val = [] ∧ a.arr = []) := by
  obtain ⟨hkind,hval,harr,htab⟩ := h
  rcases hkind with rfl | hzero
  · cases hk : a.kind with
    | none =>
      rw [hk] at hval harr htab
      exact Or.inl ⟨hval (by decide),harr (by decide),htab (by decide)⟩
    | value =>
      rw [hk] at harr htab
      have harr := harr (by decide)
      have htab := htab (by decide)
      exact Or.inr (Or.inl ⟨rfl,by simp [Arr.nelem,harr,htab],harr,htab⟩)
    | array =>
      rw [hk] at hval htab
      have hval := hval (by decide)
      have htab := htab (by decide)
      exact Or.inr (Or.inr (Or.inl ⟨rfl,by simp [Arr.nelem,hval,htab],hval,htab⟩))
    | table =>
      rw [hk] at hval harr
      have hval := hval (by decide)
      have harr := harr (by decide)
      exact Or.inr (Or.inr (Or.inr ⟨rfl,by simp [Arr.nelem,hval,harr],hval,harr⟩))
  · rw [Arr.nelem] at hzero
    exact Or.inl ⟨List.length_eq_zero_iff.mp (by omega),List.length_eq_zero_iff.mp (by omega),
      List.length_eq_zero_iff.mp (by omega)⟩

theorem getter_elemAt {α : Type} {l : List α} (hn : a.nelem = l.length) :
    (if ¬(0 ≤ i ∧ i < a.nelem) then none else l[i.toNat]?) = elemAt l i := by
  rw [ite_not,hn]
  rfl

theorem answer_of (h : a.Of kind) : a.answer i = ⟨elemAt a.val i,elemAt a.arr i,elemAt a.tab i⟩ := by
  rw [Arr.answer,tomlRawAt,tomlArrayAt,tomlTableAt]
  rcases of_cases h with ⟨hval,harr,htab⟩ | ⟨hkind,hn,harr,htab⟩ | ⟨hkind,hn,hval,htab⟩ |
    ⟨hkind,hn,hval,harr⟩
  · simp [hval,harr,htab,elemAt_nil]
  · simp only [hkind,getter_elemAt hn,harr,htab,elemAt_nil,ne_eq,not_true,if_false,reduceCtorEq,
      not_false_eq_true,if_true]
  · simp only [hkind,getter_elemAt hn,hval,htab,elemAt_nil,ne_eq,not_true,if_false,reduceCtorEq,
      not_false_eq_true,if_true]
  · simp only [hkind,getter_elemAt hn,hval,harr,elemAt_nil,ne_eq,not_true,if_false,reduceCtorEq,
      not_false_eq_true,if_true]

theorem answer_outside (h : a.Of kind) (hi : ¬(0 ≤ i ∧ i < a.nelem)) : a.answer i = .none := by
  have hout : ∀ {α : Type} (l : List α), l.length ≤ a.nelem → elemAt l i = none := by
    intro α l hl
    rw [elemAt,if_neg (by omega)]
  rw [answer_of h,hout a.val (by rw [Arr.nelem]; omega),hout a.arr (by rw [Arr.nelem]; omega),
    hout a.tab (by rw [Arr.nelem]; omega)]
  rfl

theorem pushTo_of {v : Value} (h : a.Of (v.sort strtod).1) :
    (v.pushTo strtod a).Of (v.sort strtod).1 ∧ (v.pushTo strtod a).nelem = a.nelem + 1 := by
  obtain ⟨-,hval,harr,htab⟩ := h
  cases v with
  | raw v =>
    refine ⟨⟨Or.inl rfl,fun hk => absurd rfl hk,harr,htab⟩,?_⟩
    simp only [Value.pushTo,Arr.nelem,List.length_append,List.length_singleton]
    omega
  | array vs =>
    refine ⟨⟨Or.inl rfl,hval,fun hk => absurd rfl hk,htab⟩,?_⟩
    simp only [Value.pushTo,Arr.nelem,List.length_append,List.length_singleton]
    omega
  | table es =>
    refine ⟨⟨Or.inl rfl,hval,harr,fun hk => absurd rfl hk⟩,?_⟩
    simp only [Value.pushTo,Arr.nelem,List.length_append,List.length_singleton]
    omega

theorem pushTo_answer {v : Value} (h : a.Of (v.sort strtod).1) :
    (v.pushTo strtod a).answer i = if i = a.nelem then v.answer strtod none else a.answer i := by
  rw [answer_of (pushTo_of h).1,answer_of h]
  obtain ⟨-,hval,harr,htab⟩ := h
  cases v with
  | raw v =>
    have harr := harr (fun h => by cases h)
    have htab := htab (fun h => by cases h)
    have hn : a.nelem = a.val.length := by simp [Arr.nelem,harr,htab]
    simp only [Value.pushTo,elemAt_concat,hn,harr,htab,elemAt_nil]
    split_ifs <;> rfl
  | array vs =>
    have hval := hval (fun h => by cases h)
    have htab := htab (fun h => by cases h)
    have hn : a.nelem = a.arr.length := by simp [Arr.nelem,hval,htab]
    simp only [Value.pushTo,elemAt_concat,hn,hval,htab,elemAt_nil]
    split_ifs <;> rfl
  | table es =>
    have hval := hval (fun h => by cases h)
    have harr := harr (fun h => by cases h)
    have hn : a.nelem = a.tab.length := by simp [Arr.nelem,hval,harr]
    simp only [Value.pushTo,elemAt_concat,hn,hval,harr,elemAt_nil]
    split_ifs <;> rfl

theorem pushTable_of (u : Table) (h : a.kind = .table ∧ a.Of .table) :
    (({ a with tab := a.tab ++ [u] } : Arr).kind = .table ∧
      ({ a with tab := a.tab ++ [u] } : Arr).Of .table) ∧
      ({ a with tab := a.tab ++ [u] } : Arr).nelem = a.nelem + 1 := by
  obtain ⟨hkind,-,hval,harr,-⟩ := h
  refine ⟨⟨hkind,Or.inl hkind,hval,harr,fun hk => absurd rfl hk⟩,?_⟩
  simp only [Arr.nelem,List.length_append,List.length_singleton]
  omega

theorem answer_pushTable (u : Table) (h : a.kind = .table ∧ a.Of .table) :
    ({ a with tab := a.tab ++ [u] } : Arr).answer i =
      if i = a.nelem then ⟨none,none,some u⟩ else a.answer i := by
  rw [answer_of (pushTable_of u h).1.2,answer_of h.2]
  obtain ⟨-,-,hval,harr,-⟩ := h
  have hval := hval (fun h => by cases h)
  have harr := harr (fun h => by cases h)
  have hn : a.nelem = a.tab.length := by simp [Arr.nelem,hval,harr]
  simp only [elemAt_concat,hn,hval,harr,elemAt_nil]
  split_ifs <;> rfl

theorem fillValues_of {s : Kind × Option ValType} (vs : Values) (a : Arr) (hvs : vs.Of strtod s)
    (ha : a.Of s.1) :
    (vs.fill strtod a).Of s.1 ∧ (vs.fill strtod a).nelem = a.nelem + vs.length := by
  cases vs with
  | nil => exact ⟨ha,rfl⟩
  | cons v vs =>
    obtain ⟨rfl,hvs⟩ := hvs
    obtain ⟨hof,hn⟩ := pushTo_of ha
    obtain ⟨hof',hn'⟩ := fillValues_of vs _ hvs hof
    refine ⟨hof',?_⟩
    rw [Values.fill,hn',hn,Values.length]
    omega

theorem answer_fillValues {s : Kind × Option ValType} (vs : Values) (a : Arr)
    (hvs : vs.Of strtod s) (ha : a.Of s.1) (hi : i < a.nelem) :
    (vs.fill strtod a).answer i = a.answer i := by
  cases vs with
  | nil => rfl
  | cons v vs =>
    obtain ⟨rfl,hvs⟩ := hvs
    obtain ⟨hof,hn⟩ := pushTo_of ha
    rw [Values.fill,answer_fillValues vs _ hvs hof (by omega),pushTo_answer ha,if_neg (by omega)]

theorem of_empty (key : Option Bytes) (kind : Kind) : (Arr.empty key).Of kind :=
  ⟨Or.inr rfl,fun _ => rfl,fun _ => rfl,fun _ => rfl⟩

theorem lists_entries (es : Entries) (key : Option Bytes) :
    (es.fill strtod (Table.empty key false)).Lists es.names := by
  apply lists_of_keys
  have hperm := fill_perm strtod es (Table.empty key false)
  have hempty : (Table.empty key false).keys = [] := rfl
  rwa [hempty,List.append_nil] at hperm

end arrays

section values
variable {strtod : Bytes → Bool}

mutual

theorem value_shown : ∀ (v : Value) (key : Option Bytes), v.WellFormed strtod →
    v.Shown (v.answer strtod key)
  | .raw v, _, _ => rfl
  | .array vs, key, hv => by
    obtain ⟨⟨s,hvs⟩,hv⟩ := hv
    have hempty := of_empty key s.1
    obtain ⟨hof,hn⟩ := fillValues_of vs _ hvs hempty
    have hlength : (vs.fill strtod (Arr.empty key)).nelem = vs.length := hn.trans (Nat.zero_add _)
    refine ⟨_,rfl,⟨hlength,fun i hi => ?_⟩,values_shown vs _ hv hvs hempty⟩
    exact answer_outside hof (hlength ▸ hi)
  | .table es, key, hv =>
    ⟨_,rfl,lists_entries es key,entries_shown es _ hv.2 hv.1 (by simp [Table.keys,Table.empty])⟩

theorem values_shown : ∀ (vs : Values) (a : Arr) {s : Kind × Option ValType},
    vs.WellFormed strtod → vs.Of strtod s → a.Of s.1 → vs.Shown (vs.fill strtod a) a.nelem
  | .nil, _, _, _, _, _ => trivial
  | .cons v vs, a, _, hv, hvs, ha => by
    obtain ⟨rfl,hvs⟩ := hvs
    obtain ⟨hof,hn⟩ := pushTo_of ha
    have hanswer : ((vs.fill strtod (v.pushTo strtod a)).answer a.nelem) = v.answer strtod none := by
      rw [answer_fillValues vs _ hvs hof (by omega),pushTo_answer ha,if_pos rfl]
    constructor
    · rw [Values.fill,hanswer]
      exact value_shown v none hv.1
    · rw [Values.fill,← hn]
      exact values_shown vs _ hv.2 hvs hof

theorem entries_shown : ∀ (es : Entries) (t : Table), es.WellFormed strtod → es.names.Nodup →
    (∀ k ∈ es.names, some k ∉ t.keys) → es.Shown (es.fill strtod t)
  | .nil, _, _, _, _ => trivial
  | .cons key v es, t, hv, hnodup, hnew => by
    obtain ⟨hkey,hnodup⟩ := List.nodup_cons.mp hnodup
    have hfresh : ∀ k ∈ es.names, some k ∉ (v.addTo strtod key t).keys := fresh_addTo hkey hnew
    constructor
    · rw [Entries.fill,answer_fill es _ hnodup hfresh hkey,
        answer_addTo v (hnew key List.mem_cons_self),if_pos rfl]
      exact value_shown v (some key) hv.1
    · exact entries_shown es _ hv.2 hnodup hfresh

end

theorem shown_congr : ∀ (es : Entries) {t u : Table}, (∀ k ∈ es.names, u.answer k = t.answer k) →
    es.Shown t → es.Shown u
  | .nil, _, _, _, _ => trivial
  | .cons key v es, t, u, heq, h => by
    obtain ⟨hkey,heq⟩ := List.forall_mem_cons.mp heq
    constructor
    · rw [hkey]
      exact h.1
    · exact shown_congr es heq h.2

end values

section sections
variable {strtod : Bytes → Bool} {t : Table} {key k : Bytes} {names : List Bytes}

theorem fresh_push {t' : Table} (hkey : key ∉ names) (hnew : ∀ k ∈ names, some k ∉ t.keys)
    (hperm : t'.keys.Perm (some key :: t.keys)) : ∀ k ∈ names, some k ∉ t'.keys := by
  intro k hk
  rw [hperm.mem_iff,List.mem_cons,not_or]
  refine ⟨?_,hnew k hk⟩
  rintro ⟨⟩
  exact hkey hk

theorem fill_behind {t' u : Table} (hput : t'.keys.Perm (some key :: t.keys))
    (hrest : u.keys.Perm (names.map some ++ t'.keys)) :
    u.keys.Perm ((key :: names).map some ++ t.keys) := by
  rw [List.map_cons,List.cons_append]
  exact hrest.trans ((hput.append_left _).trans List.perm_middle)

theorem subtable_key (strtod : Bytes → Bool) (es : Entries) (sub : Sections) (key : Option Bytes) :
    (sub.fill strtod (es.fill strtod (Table.empty key false))).key = key := by
  rw [sections_key,Entries.fill_key]
  rfl

theorem implied_key (strtod : Bytes → Bool) (sub : Sections) (key : Option Bytes) :
    (sub.fill strtod (Table.empty key true)).key = key :=
  sections_key sub _

theorem tableArray_key (strtod : Bytes → Bool) (ts : Tables) (key : Option Bytes) :
    (ts.fill strtod { Arr.empty key with kind := .table }).key = key :=
  tables_key ts _

theorem fillSections_perm : ∀ (ss : Sections) (t : Table),
    (ss.fill strtod t).keys.Perm (ss.names.map some ++ t.keys)
  | .nil, _ => .refl _
  | .table _ es sub ss, _ =>
    fill_behind (pushTab_perm (subtable_key strtod es sub _)) (fillSections_perm ss _)
  | .implied _ sub ss, _ =>
    fill_behind (pushTab_perm (implied_key strtod sub _)) (fillSections_perm ss _)
  | .array _ ts ss, _ =>
    fill_behind (pushArr_perm (tableArray_key strtod ts _)) (fillSections_perm ss _)

theorem answer_fillSections : ∀ (ss : Sections) (t : Table), ss.names.Nodup →
    (∀ k ∈ ss.names, some k ∉ t.keys) → k ∉ ss.names → (ss.fill strtod t).answer k = t.answer k
  | .nil, t, _, _, _ => rfl
  | .table key es sub ss, t, hnodup, hnew, hk => by
    obtain ⟨hkey,hnodup⟩ := List.nodup_cons.mp hnodup
    obtain ⟨hfirst,hnew⟩ := List.forall_mem_cons.mp hnew
    obtain ⟨hne,hk⟩ := not_or.mp (mt List.mem_cons.mpr hk)
    have hu := subtable_key strtod es sub (some key)
    rw [Sections.fill,answer_fillSections ss _ hnodup (fresh_push hkey hnew (pushTab_perm hu)) hk,
      answer_pushTab hfirst hu,if_neg (Ne.symm hne)]
  | .implied key sub ss, t, hnodup, hnew, hk => by
    obtain ⟨hkey,hnodup⟩ := List.nodup_cons.mp hnodup
    obtain ⟨hfirst,hnew⟩ := List.forall_mem_cons.mp hnew
    obtain ⟨hne,hk⟩ := not_or.mp (mt List.mem_cons.mpr hk)
    have hu := implied_key strtod sub (some key)
    rw [Sections.fill,answer_fillSections ss _ hnodup (fresh_push hkey hnew (pushTab_perm hu)) hk,
      answer_pushTab hfirst hu,if_neg (Ne.symm hne)]
  | .array key ts ss, t, hnodup, hnew, hk => by
    obtain ⟨hkey,hnodup⟩ := List.nodup_cons.mp hnodup
    obtain ⟨hfirst,hnew⟩ := List.forall_mem_cons.mp hnew
    obtain ⟨hne,hk⟩ := not_or.mp (mt List.mem_cons.mpr hk)
    have ha := tableArray_key strtod ts (some key)
    rw [Sections.fill,answer_fillSections ss _ hnodup (fresh_push hkey hnew (pushArr_perm ha)) hk,
      answer_pushArr hfirst ha,if_neg (Ne.symm hne)]

theorem fillTables_of (strtod : Bytes → Bool) : ∀ (ts : Tables) (a : Arr),
    a.kind = .table ∧ a.Of .table →
    (ts.fill strtod a).Of .table ∧ (ts.fill strtod a).nelem = a.nelem + ts.length
  | .nil, _, ha => ⟨ha.2,rfl⟩
  | .cons es sub ts, a, ha => by
    obtain ⟨hof,hn⟩ := pushTable_of
      (sub.fill strtod (es.fill strtod (Table.empty (some anon) false))) ha
    obtain ⟨hof',hn'⟩ := fillTables_of strtod ts _ hof
    refine ⟨hof',?_⟩
    rw [Tables.fill,hn',hn,Tables.length]
    omega

theorem answer_fillTables {i : ℤ} : ∀ (ts : Tables) (a : Arr), a.kind = .table ∧ a.Of .table →
    i < a.nelem → (ts.fill strtod a).answer i = a.answer i
  | .nil, _, _, _ => rfl
  | .cons es sub ts, a, ha, hi => by
    obtain ⟨hof,hn⟩ := pushTable_of
      (sub.fill strtod (es.fill strtod (Table.empty (some anon) false))) ha
    rw [Tables.fill,answer_fillTables ts _ hof (by omega),answer_pushTable _ ha,
      if_neg (by omega)]

theorem subtable_shown {es : Entries} {sub : Sections} (key : Option Bytes)
    (hes : es.WellFormed strtod) (hnames : (es.names ++ sub.names).Nodup) :
    (sub.fill strtod (es.fill strtod (Table.empty key false))).Lists (es.names ++ sub.names) ∧
      es.Shown (sub.fill strtod (es.fill strtod (Table.empty key false))) ∧
      ∀ k ∈ sub.names, some k ∉ (es.fill strtod (Table.empty key false)).keys := by
  obtain ⟨hnodup,hnodup',hdisjoint⟩ := List.nodup_append.mp hnames
  have hempty : (Table.empty key false).keys = [] := rfl
  have hfresh : ∀ k ∈ sub.names, some k ∉ (es.fill strtod (Table.empty key false)).keys :=
    fresh_fill hempty hnames
  refine ⟨?_,?_,hfresh⟩
  · have hperm := fill_perm strtod es (Table.empty key false)
    rw [hempty,List.append_nil] at hperm
    apply lists_of_keys
    rw [List.map_append]
    exact (fillSections_perm sub _).trans ((hperm.append_left _).trans List.perm_append_comm)
  · have hshown := entries_shown es (Table.empty key false) hes hnodup (by simp [hempty])
    apply shown_congr es _ hshown
    intro k hk
    exact answer_fillSections sub _ hnodup' hfresh fun hmem => hdisjoint k hk k hmem rfl

mutual

theorem sections_shown : ∀ (ss : Sections) (t : Table), ss.WellFormed strtod → ss.names.Nodup →
    (∀ k ∈ ss.names, some k ∉ t.keys) → ss.Shown (ss.fill strtod t)
  | .nil, _, _, _, _ => trivial
  | .table key es sub ss, t, hv, hnodup, hnew => by
    obtain ⟨hes,hnames,hsub,hss⟩ := hv
    obtain ⟨hkey,hnodup⟩ := List.nodup_cons.mp hnodup
    obtain ⟨hfirst,hnew⟩ := List.forall_mem_cons.mp hnew
    have hu := subtable_key strtod es sub (some key)
    have hfresh := fresh_push hkey hnew (pushTab_perm hu)
    obtain ⟨hlists,hshown,hbelow⟩ := subtable_shown (some key) hes hnames
    constructor
    · rw [Sections.fill,answer_fillSections ss _ hnodup hfresh hkey,answer_pushTab hfirst hu,
        if_pos rfl]
      have hnodup' := (List.nodup_append.mp hnames).2.1
      exact ⟨_,rfl,hlists,hshown,sections_shown sub _ hsub hnodup' hbelow⟩
    · exact sections_shown ss _ hss hnodup hfresh
  | .implied key sub ss, t, hv, hnodup, hnew => by
    obtain ⟨-,hnames,hsub,hss⟩ := hv
    obtain ⟨hkey,hnodup⟩ := List.nodup_cons.mp hnodup
    obtain ⟨hfirst,hnew⟩ := List.forall_mem_cons.mp hnew
    have hu := implied_key strtod sub (some key)
    have hfresh := fresh_push hkey hnew (pushTab_perm hu)
    have hempty : (Table.empty (some key) true).keys = [] := rfl
    constructor
    · rw [Sections.fill,answer_fillSections ss _ hnodup hfresh hkey,answer_pushTab hfirst hu,
        if_pos rfl]
      refine ⟨_,rfl,?_,sections_shown sub _ hsub hnames (by simp [hempty])⟩
      apply lists_of_keys
      rw [← List.append_nil (sub.names.map some)]
      exact fillSections_perm sub _
    · exact sections_shown ss _ hss hnodup hfresh
  | .array key ts ss, t, hv, hnodup, hnew => by
    obtain ⟨-,hts,hss⟩ := hv
    obtain ⟨hkey,hnodup⟩ := List.nodup_cons.mp hnodup
    obtain ⟨hfirst,hnew⟩ := List.forall_mem_cons.mp hnew
    have ha := tableArray_key strtod ts (some key)
    have hfresh := fresh_push hkey hnew (pushArr_perm ha)
    have hempty : ({ Arr.empty (some key) with kind := .table } : Arr).kind = .table ∧
        ({ Arr.empty (some key) with kind := .table } : Arr).Of .table :=
      ⟨rfl,Or.inl rfl,fun _ => rfl,fun _ => rfl,fun _ => rfl⟩
    constructor
    · rw [Sections.fill,answer_fillSections ss _ hnodup hfresh hkey,answer_pushArr hfirst ha,
        if_pos rfl]
      obtain ⟨hof,hn⟩ := fillTables_of strtod ts _ hempty
      have hlength := hn.trans (Nat.zero_add _)
      refine ⟨_,rfl,⟨hlength,fun i hi => ?_⟩,tables_shown ts _ hts hempty⟩
      exact answer_outside hof (hlength ▸ hi)
    · exact sections_shown ss _ hss hnodup hfresh

theorem tables_shown : ∀ (ts : Tables) (a : Arr), ts.WellFormed strtod →
    a.kind = .table ∧ a.Of .table → ts.Shown (ts.fill strtod a) a.nelem
  | .nil, _, _, _ => trivial
  | .cons es sub ts, a, hv, ha => by
    obtain ⟨hes,hnames,hsub,hts⟩ := hv
    obtain ⟨hof,hn⟩ := pushTable_of
      (sub.fill strtod (es.fill strtod (Table.empty (some anon) false))) ha
    obtain ⟨hlists,hshown,hbelow⟩ := subtable_shown (some anon) hes hnames
    constructor
    · rw [Tables.fill,answer_fillTables ts _ hof (by omega),answer_pushTable _ ha,if_pos rfl]
      have hnodup' := (List.nodup_append.mp hnames).2.1
      exact ⟨_,rfl,hlists,hshown,sections_shown sub _ hsub hnodup' hbelow⟩
    · rw [Tables.fill,← hn]
      exact tables_shown ts _ hts hof

end

end sections

theorem tomlParse_shown (strtod : Bytes → Bool) {es : Entries} {ss : Sections}
    {ls ls' : List Lexeme} {src : Bytes} (hes : es.WellFormed strtod) (hss : ss.WellFormed strtod)
    (hnames : (es.names ++ ss.names).Nodup) (hdepth : ss.depth ≤ maxPath) (hlines : Lines es ls)
    (hwrites : ss.Writes [] ls') (hspells : Spells (ls ++ ls') (cString src)) :
    ∃ root, tomlParse strtod (enoughFuel src) src = .ok root ∧
      root.Lists (es.names ++ ss.names) ∧ es.Shown root ∧ ss.Shown root := by
  have hparse : tomlParse strtod (enoughFuel src) src =
      .ok (ss.fill strtod (es.fill strtod (Table.empty none false))) := by
    apply tomlParse_loop (undotted_lines hlines (ends_undotted (sections_end hwrites))) hspells
    intro t ht
    exact document_yields hes hss hnames hdepth hlines hwrites ht
  obtain ⟨hlists,hshown,hbelow⟩ := subtable_shown none hes hnames
  have hnodup := (List.nodup_append.mp hnames).2.1
  exact ⟨_,hparse,hlists,hshown,sections_shown ss _ hss hnodup hbelow⟩

theorem tomlParse_shown_tree :
    ∃ root, tomlParse digitsOnly (enoughFuel (layOut [] treeLayout)) (layOut [] treeLayout) =
        .ok root ∧
      root.Lists treeDoc.names ∧ Entries.nil.Shown root ∧ treeDoc.Shown root := by
  have hempty : Entries.nil.WellFormed digitsOnly := trivial
  exact tomlParse_shown digitsOnly hempty treeDoc_wellFormed (by decide) (by decide) (.nil 0)
    treeDoc_writes treeLayout_spells

end Toml
