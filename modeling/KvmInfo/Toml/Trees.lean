import KvmInfo.Toml.Tokens

namespace Toml
open Caps

def Table.keys (t : Table) : List (Option Bytes) :=
  t.kval.map (fun e => some e.key) ++ t.arr.map Arr.key ++ t.tab.map Table.key

def IsName (k : Option Bytes) : Prop := ∃ key, k = some key ∧ newline ∉ key ∧ 0 ∉ key

section valid
variable (strtod : Bytes → Bool)

def Arr.Shaped (a : Arr) : Prop :=
  match a.kind with
  | .none => a.val = [] ∧ a.arr = [] ∧ a.tab = []
  | .value =>
      a.val ≠ [] ∧ a.arr = [] ∧ a.tab = [] ∧ ∀ v ∈ a.val, a.type = some (valtype strtod v)
  | .array => a.val = [] ∧ a.arr ≠ [] ∧ a.tab = []
  | .table => a.val = [] ∧ a.arr = [] ∧ a.tab ≠ []

mutual

inductive Table.Valid : Table → Prop where
  | intro {t : Table} (nodup : t.keys.Nodup) (named : ∀ k ∈ t.keys, IsName k)
      (arr : ∀ a ∈ t.arr, Arr.Valid a) (tab : ∀ s ∈ t.tab, Table.Valid s) : Table.Valid t

inductive Arr.Valid : Arr → Prop where
  | intro {a : Arr} (shaped : a.Shaped strtod) (arr : ∀ b ∈ a.arr, Arr.Valid b)
      (tab : ∀ t ∈ a.tab, Table.Valid t) : Arr.Valid a

end

end valid

section valid
variable {strtod : Bytes → Bool}

theorem Table.Valid.nodup {t : Table} (h : t.Valid strtod) : t.keys.Nodup := by
  cases h with
  | intro nodup named arr tab => exact nodup

theorem Table.Valid.named {t : Table} (h : t.Valid strtod) : ∀ k ∈ t.keys, IsName k := by
  cases h with
  | intro nodup named arr tab => exact named

theorem Table.Valid.arr {t : Table} (h : t.Valid strtod) : ∀ a ∈ t.arr, a.Valid strtod := by
  cases h with
  | intro nodup named arr tab => exact arr

theorem Table.Valid.tab {t : Table} (h : t.Valid strtod) : ∀ s ∈ t.tab, s.Valid strtod := by
  cases h with
  | intro nodup named arr tab => exact tab

theorem Arr.Valid.shaped {a : Arr} (h : a.Valid strtod) : a.Shaped strtod := by
  cases h with
  | intro shaped arr tab => exact shaped

theorem Arr.Valid.arr {a : Arr} (h : a.Valid strtod) : ∀ b ∈ a.arr, b.Valid strtod := by
  cases h with
  | intro shaped arr tab => exact arr

theorem Arr.Valid.tab {a : Arr} (h : a.Valid strtod) : ∀ t ∈ a.tab, t.Valid strtod := by
  cases h with
  | intro shaped arr tab => exact tab

theorem Table.valid_empty (key : Option Bytes) (implicit : Bool) :
    (Table.empty key implicit).Valid strtod :=
  .intro (by simp [Table.keys,Table.empty]) (by simp [Table.keys,Table.empty])
    (by simp [Table.empty]) (by simp [Table.empty])

theorem Arr.valid_empty (key : Option Bytes) : (Arr.empty key).Valid strtod :=
  .intro ⟨rfl,rfl,rfl⟩ (by simp [Arr.empty]) (by simp [Arr.empty])

end valid

section lookups
variable {t : Table} {key : Bytes}

theorem findIdx?_key {α : Type} {l : List α} {name : α → Option Bytes} {i : ℕ}
    (h : l.findIdx? (fun a => name a = some key) = some i) :
    ∃ a, l[i]? = some a ∧ name a = some key := by
  obtain ⟨hi,ha,-⟩ := List.findIdx?_eq_some_iff_getElem.mp h
  exact ⟨l[i],List.getElem?_eq_getElem hi,of_decide_eq_true ha⟩

theorem checkKey_none (h : checkKey t key = none) : some key ∉ t.keys := by
  rw [checkKey] at h
  split at h
  · cases h
  · next hval =>
    split at h
    · cases h
    · next harr =>
      have htab := Option.map_eq_none_iff.mp h
      rw [List.findIdx?_eq_none_iff] at hval harr htab
      simp only [Table.keys,List.mem_append,List.mem_map,not_or,not_exists,not_and]
      refine ⟨⟨?_,?_⟩,?_⟩
      · intro e he heq
        simpa [Option.some.inj heq] using hval e he
      · intro a ha heq
        simpa [heq] using harr a ha
      · intro s hs heq
        simpa [heq] using htab s hs

theorem checkKey_of_not_mem (h : some key ∉ t.keys) : checkKey t key = none := by
  simp only [Table.keys,List.mem_append,List.mem_map,not_or,not_exists,not_and] at h
  obtain ⟨⟨hval,harr⟩,htab⟩ := h
  have h1 : t.kval.findIdx? (fun e => e.key = key) = none := by
    rw [List.findIdx?_eq_none_iff]
    intro e he
    exact decide_eq_false fun heq => hval e he (congrArg some heq)
  have h2 : t.arr.findIdx? (fun a => a.key = some key) = none := by
    rw [List.findIdx?_eq_none_iff]
    intro a ha
    exact decide_eq_false (harr a ha)
  have h3 : t.tab.findIdx? (fun s => s.key = some key) = none := by
    rw [List.findIdx?_eq_none_iff]
    intro s hs
    exact decide_eq_false (htab s hs)
  simp only [checkKey,h1,h2,h3,Option.map_none]

theorem checkKey_tab {i : ℕ} (h : checkKey t key = some (.tab i)) :
    ∃ s, t.tab[i]? = some s ∧ s.key = some key := by
  rw [checkKey] at h
  split at h
  · cases h
  · split at h
    · cases h
    · obtain ⟨j,hj,heq⟩ := Option.map_eq_some_iff.mp h
      cases heq
      exact findIdx?_key hj

theorem checkKey_arr {i : ℕ} (h : checkKey t key = some (.arr i)) :
    ∃ a, t.arr[i]? = some a ∧ a.key = some key := by
  rw [checkKey] at h
  split at h
  · cases h
  · split at h
    · next harr =>
      cases h
      exact findIdx?_key harr
    · obtain ⟨j,hj,heq⟩ := Option.map_eq_some_iff.mp h
      cases heq

end lookups

section names

theorem not_mem_cString (s : Bytes) : 0 ∉ cString s := by
  intro h
  have := List.all_takeWhile (p := (· ≠ 0)) (l := s)
  rw [List.all_eq_true] at this
  simpa using this 0 h

theorem bareKey_plain {k : UInt8} (h : bareKeyByte k = true) : k ≠ newline ∧ k ≠ 0 := by
  constructor
  · rintro rfl
    exact absurd h (by decide)
  · rintro rfl
    exact absurd h (by decide)

theorem quotedKey_ok {t : Token} {ch : UInt8} {key : Bytes} (h : quotedKey t ch = .ok key) :
    0 ∉ key := by
  rw [quotedKey] at h
  split_ifs at h
  · cases h
    exact not_mem_cString _
  · split at h
    · cases h
      exact not_mem_cString _
    · cases h

theorem normalizeKey_name {t : Token} {key : Bytes} (h : normalizeKey t = .ok key) :
    IsName (some key) := by
  refine ⟨key,rfl,?_⟩
  rw [normalizeKey] at h
  split_ifs at h with hq hall
  · split at h
    · cases h
    · next hret =>
      split_ifs at h with hnl
      cases h
      exact ⟨hnl,quotedKey_ok hret⟩
  · cases h
    rw [List.all_eq_true] at hall
    exact ⟨fun hm => (bareKey_plain (hall _ hm)).1 rfl,fun hm => (bareKey_plain (hall _ hm)).2 rfl⟩

theorem quotedKey_error {t : Token} {ch : UInt8} {e : Error} (h : quotedKey t ch = .error e) :
    e.lineno = some t.lineno := by
  rw [quotedKey] at h
  split_ifs at h
  split at h
  · cases h
  · cases h
    rfl

theorem normalizeKey_error {t : Token} {e : Error} (h : normalizeKey t = .error e) :
    e.lineno = some t.lineno := by
  rw [normalizeKey] at h
  split_ifs at h
  · split at h
    · next hret =>
      cases h
      exact quotedKey_error hret
    · split_ifs at h
      cases h
      rfl
  · cases h
    rfl

end names

section create
variable {strtod : Bytes → Bool} {t t' : Table} {keytok : Token}

theorem valid_pushKeyval {key val : Bytes} (h : t.Valid strtod) (hname : IsName (some key))
    (hnew : some key ∉ t.keys) : ({ t with kval := t.kval ++ [⟨key,val⟩] } : Table).Valid strtod := by
  have hperm : ({ t with kval := t.kval ++ [⟨key,val⟩] } : Table).keys.Perm (some key :: t.keys) := by
    simp only [Table.keys,List.map_append,List.map_cons,List.map_nil,List.append_assoc,
      List.singleton_append]
    exact List.perm_middle
  refine .intro (hperm.nodup_iff.mpr (List.nodup_cons.mpr ⟨hnew,h.nodup⟩)) ?_ h.arr h.tab
  intro k hk
  rcases List.mem_cons.mp (hperm.mem_iff.mp hk) with rfl | hk
  · exact hname
  · exact h.named k hk

theorem valid_pushArr {key : Bytes} (h : t.Valid strtod) (hname : IsName (some key))
    (hnew : some key ∉ t.keys) :
    { t with arr := t.arr ++ [Arr.empty (some key)] }.Valid strtod := by
  have hperm : ({ t with arr := t.arr ++ [Arr.empty (some key)] } : Table).keys.Perm
      (some key :: t.keys) := by
    simp only [Table.keys,List.map_append,List.map_cons,List.map_nil,List.append_assoc,
      List.singleton_append,Arr.empty]
    rw [← List.append_assoc,← List.append_assoc]
    exact List.perm_middle
  refine .intro (hperm.nodup_iff.mpr (List.nodup_cons.mpr ⟨hnew,h.nodup⟩)) ?_ ?_ h.tab
  · intro k hk
    rcases List.mem_cons.mp (hperm.mem_iff.mp hk) with rfl | hk
    · exact hname
    · exact h.named k hk
  · intro a ha
    rcases List.mem_append.mp ha with ha | ha
    · exact h.arr a ha
    · rw [List.mem_singleton.mp ha]
      exact Arr.valid_empty _

theorem valid_pushTab {key : Bytes} (implicit : Bool) (h : t.Valid strtod)
    (hname : IsName (some key)) (hnew : some key ∉ t.keys) :
    { t with tab := t.tab ++ [Table.empty (some key) implicit] }.Valid strtod := by
  have hperm : ({ t with tab := t.tab ++ [Table.empty (some key) implicit] } : Table).keys.Perm
      (some key :: t.keys) := by
    simp only [Table.keys,List.map_append,List.map_cons,List.map_nil,Table.empty]
    rw [← List.append_assoc]
    exact List.perm_append_singleton _ _
  refine .intro (hperm.nodup_iff.mpr (List.nodup_cons.mpr ⟨hnew,h.nodup⟩)) ?_ h.arr ?_
  · intro k hk
    rcases List.mem_cons.mp (hperm.mem_iff.mp hk) with rfl | hk
    · exact hname
    · exact h.named k hk
  · intro s hs
    rcases List.mem_append.mp hs with hs | hs
    · exact h.tab s hs
    · rw [List.mem_singleton.mp hs]
      exact Table.valid_empty _ _

theorem map_set_same {α β : Type} {l : List α} {f : α → β} {i : ℕ} {a b : α} (h : l[i]? = some a)
    (hab : f b = f a) : (l.set i b).map f = l.map f := by
  obtain ⟨hi,rfl⟩ := List.getElem?_eq_some_iff.mp h
  rw [List.map_set,hab,← List.getElem_map f (h := by simpa using hi),List.set_getElem_self]

theorem setTab_keys {i : ℕ} {s new : Table} (hs : t.tab[i]? = some s) (hkey : new.key = s.key) :
    (setTab t i new).keys = t.keys := by
  rw [Table.keys,Table.keys,setTab,map_set_same hs hkey]

theorem setArr_keys {i : ℕ} {a new : Arr} (ha : t.arr[i]? = some a) (hkey : new.key = a.key) :
    (setArr t i new).keys = t.keys := by
  rw [Table.keys,Table.keys,setArr,map_set_same ha hkey]

theorem valid_setTab {i : ℕ} {s new : Table} (h : t.Valid strtod) (hs : t.tab[i]? = some s)
    (hnew : new.Valid strtod) (hkey : new.key = s.key) : (setTab t i new).Valid strtod := by
  have hkeys := setTab_keys hs hkey
  refine .intro (hkeys ▸ h.nodup) (hkeys ▸ h.named) h.arr ?_
  intro u hu
  rcases List.mem_or_eq_of_mem_set hu with hu | rfl
  · exact h.tab u hu
  · exact hnew

theorem valid_setArr {i : ℕ} {a new : Arr} (h : t.Valid strtod) (ha : t.arr[i]? = some a)
    (hnew : new.Valid strtod) (hkey : new.key = a.key) : (setArr t i new).Valid strtod := by
  have hkeys := setArr_keys ha hkey
  refine .intro (hkeys ▸ h.nodup) (hkeys ▸ h.named) ?_ h.tab
  intro b hb
  rcases List.mem_or_eq_of_mem_set hb with hb | rfl
  · exact h.arr b hb
  · exact hnew

theorem createKeyval_ok {val : Bytes} (h : t.Valid strtod)
    (hc : createKeyvalInTable t keytok val = .ok t') : t'.Valid strtod ∧ t'.key = t.key := by
  rw [createKeyvalInTable] at hc
  cases hkey : normalizeKey keytok with
  | error e => simp [hkey,bind,Except.bind] at hc
  | ok newkey =>
    cases hcheck : checkKey t newkey with
    | some entry => simp [hkey,hcheck,bind,Except.bind] at hc
    | none =>
      simp only [hkey,hcheck,bind,Except.bind] at hc
      cases hc
      exact ⟨valid_pushKeyval h (normalizeKey_name hkey) (checkKey_none hcheck),rfl⟩

theorem createKeytable_ok {i : ℕ} (h : t.Valid strtod)
    (hc : createKeytableInTable t keytok = .ok (t',i)) :
    t'.Valid strtod ∧ t'.key = t.key ∧ ∃ dest, t'.tab[i]? = some dest := by
  rw [createKeytableInTable] at hc
  cases hkey : normalizeKey keytok with
  | error e => simp [hkey,bind,Except.bind] at hc
  | ok newkey =>
    simp only [hkey,bind,Except.bind] at hc
    cases hcheck : checkKey t newkey with
    | none =>
      simp only [hcheck] at hc
      cases hc
      exact ⟨valid_pushTab false h (normalizeKey_name hkey) (checkKey_none hcheck),rfl,_,
        List.getElem?_concat_length⟩
    | some entry =>
      cases entry with
      | val j => simp [hcheck] at hc
      | arr j => simp [hcheck] at hc
      | tab j =>
        obtain ⟨dest,hdest,-⟩ := checkKey_tab hcheck
        simp only [hcheck,hdest] at hc
        split_ifs at hc
        cases hc
        have hmem := h.tab dest (List.mem_of_getElem? hdest)
        have hvalid : { dest with implicit := false }.Valid strtod :=
          .intro hmem.nodup hmem.named hmem.arr hmem.tab
        have hj := (List.getElem?_eq_some_iff.mp hdest).1
        exact ⟨valid_setTab h hdest hvalid rfl,rfl,_,List.getElem?_set_self hj⟩

theorem createKeyarray_ok {skip : Bool} {dest : Option ℕ} (h : t.Valid strtod)
    (hc : createKeyarrayInTable t keytok skip = .ok (t',dest)) :
    t'.Valid strtod ∧ t'.key = t.key ∧ (∀ i, dest = some i → ∃ a, t'.arr[i]? = some a) ∧
      (skip = false → dest ≠ none) := by
  rw [createKeyarrayInTable] at hc
  cases hkey : normalizeKey keytok with
  | error e => simp [hkey,bind,Except.bind] at hc
  | ok newkey =>
    simp only [hkey,bind,Except.bind] at hc
    cases hcheck : checkKey t newkey with
    | none =>
      simp only [hcheck] at hc
      cases hc
      refine ⟨valid_pushArr h (normalizeKey_name hkey) (checkKey_none hcheck),rfl,?_,by simp⟩
      intro i hi
      cases hi
      exact ⟨_,List.getElem?_concat_length⟩
    | some entry =>
      simp only [hcheck] at hc
      cases skip with
      | false => cases hc
      | true =>
        cases entry with
        | val j =>
          cases hc
          exact ⟨h,rfl,by simp,by simp⟩
        | tab j =>
          cases hc
          exact ⟨h,rfl,by simp,by simp⟩
        | arr j =>
          cases hc
          obtain ⟨a,ha,-⟩ := checkKey_arr hcheck
          refine ⟨h,rfl,?_,by simp⟩
          intro i hi
          cases hi
          exact ⟨a,ha⟩

end create

section errors
variable {t : Table} {keytok : Token} {e : Error}

theorem createKeyval_error {val : Bytes} (h : createKeyvalInTable t keytok val = .error e) :
    e.lineno = some keytok.lineno := by
  rw [createKeyvalInTable] at h
  cases hkey : normalizeKey keytok with
  | error e' =>
    simp only [hkey,bind,Except.bind] at h
    cases h
    exact normalizeKey_error hkey
  | ok newkey =>
    simp only [hkey,bind,Except.bind] at h
    split at h
    · cases h
      rfl
    · cases h

theorem createKeytable_error (h : createKeytableInTable t keytok = .error e) :
    e.lineno = some keytok.lineno := by
  rw [createKeytableInTable] at h
  cases hkey : normalizeKey keytok with
  | error e' =>
    simp only [hkey,bind,Except.bind] at h
    cases h
    exact normalizeKey_error hkey
  | ok newkey =>
    simp only [hkey,bind,Except.bind] at h
    split at h
    · split at h
      · split_ifs at h
        · cases h
        · cases h
          rfl
      · cases h
        rfl
    · cases h
      rfl
    · cases h

theorem createKeyarray_error {skip : Bool} (h : createKeyarrayInTable t keytok skip = .error e) :
    e.lineno = some keytok.lineno := by
  rw [createKeyarrayInTable] at h
  cases hkey : normalizeKey keytok with
  | error e' =>
    simp only [hkey,bind,Except.bind] at h
    cases h
    exact normalizeKey_error hkey
  | ok newkey =>
    simp only [hkey,bind,Except.bind] at h
    split at h
    · split at h
      · split at h
        · cases h
        · cases h
      · cases h
        rfl
    · cases h

end errors

section push
variable {strtod : Bytes → Bool} {a a' : Arr}

theorem setKind_cases (kind : Kind) :
    (a.kind = .none ∧ a.setKind kind = { a with kind := kind }) ∨
      a.kind ≠ .none ∧ a.setKind kind = a := by
  rw [Arr.setKind]
  split_ifs with h
  · exact Or.inl ⟨h,rfl⟩
  · exact Or.inr ⟨h,rfl⟩

theorem setKind_key (kind : Kind) : (a.setKind kind).key = a.key := by
  rw [Arr.setKind]
  split_ifs <;> rfl

theorem pushVal_ok {val : Bytes} (h : a.Valid strtod) (hkind : (a.setKind .value).kind = .value)
    (hp : pushVal strtod (a.setKind .value) val = some a') :
    a'.Valid strtod ∧ a'.key = a.key := by
  have hshape := h.shaped
  rcases setKind_cases (a := a) .value with ⟨hnone,heq⟩ | ⟨-,heq⟩
  · rw [Arr.Shaped,hnone] at hshape
    obtain ⟨hv,ha,ht⟩ := hshape
    rw [heq,pushVal] at hp
    simp only [Arr.nelem,hv,ha,ht,List.nil_append,List.length_singleton,List.length_nil,
      Nat.add_zero,if_true] at hp
    cases hp
    exact ⟨.intro ⟨by simp,rfl,rfl,by simp⟩ (by simp) (by simp),rfl⟩
  · rw [heq] at hkind hp
    rw [Arr.Shaped,hkind] at hshape
    obtain ⟨hv,ha,ht,htype⟩ := hshape
    rw [pushVal] at hp
    have hlen : 0 < a.val.length := List.length_pos_iff.mpr hv
    have hn : Arr.nelem { a with val := a.val ++ [val] } ≠ 1 := by
      simp only [Arr.nelem,List.length_append,List.length_singleton]
      omega
    simp only [hn,if_false] at hp
    split_ifs at hp with hty
    cases hp
    refine ⟨.intro ?_ h.arr h.tab,rfl⟩
    simp only [Arr.Shaped,hkind]
    refine ⟨by simp,ha,ht,?_⟩
    intro v hm
    rcases List.mem_append.mp hm with hm | hm
    · exact htype v hm
    · rw [List.mem_singleton.mp hm]
      exact hty

theorem pushArr_valid {elem : Arr} (h : a.Valid strtod) (hkind : (a.setKind .array).kind = .array)
    (he : elem.Valid strtod) :
    ({ a.setKind .array with arr := (a.setKind .array).arr ++ [elem] } : Arr).Valid strtod := by
  have hshape := h.shaped
  have harr : ∀ b ∈ a.arr ++ [elem], b.Valid strtod := by
    intro b hb
    rcases List.mem_append.mp hb with hb | hb
    · exact h.arr b hb
    · rw [List.mem_singleton.mp hb]
      exact he
  rcases setKind_cases (a := a) .array with ⟨hnone,heq⟩ | ⟨-,heq⟩
  · rw [Arr.Shaped,hnone] at hshape
    rw [heq]
    exact .intro ⟨hshape.1,by simp,hshape.2.2⟩ harr h.tab
  · rw [heq] at hkind ⊢
    rw [Arr.Shaped,hkind] at hshape
    refine .intro ?_ harr h.tab
    simp only [Arr.Shaped,hkind]
    exact ⟨hshape.1,by simp,hshape.2.2⟩

theorem pushTab_valid {elem : Table} (h : a.Valid strtod) (hkind : (a.setKind .table).kind = .table)
    (he : elem.Valid strtod) :
    ({ a.setKind .table with tab := (a.setKind .table).tab ++ [elem] } : Arr).Valid strtod := by
  have hshape := h.shaped
  have htab : ∀ t ∈ a.tab ++ [elem], t.Valid strtod := by
    intro t ht
    rcases List.mem_append.mp ht with ht | ht
    · exact h.tab t ht
    · rw [List.mem_singleton.mp ht]
      exact he
  rcases setKind_cases (a := a) .table with ⟨hnone,heq⟩ | ⟨-,heq⟩
  · rw [Arr.Shaped,hnone] at hshape
    rw [heq]
    exact .intro ⟨hshape.1,hshape.2.1,by simp⟩ h.arr htab
  · rw [heq] at hkind ⊢
    rw [Arr.Shaped,hkind] at hshape
    refine .intro ?_ h.arr htab
    simp only [Arr.Shaped,hkind]
    exact ⟨hshape.1,hshape.2.1,by simp⟩

end push

section paths
variable {strtod : Bytes → Bool} {root t : Table} {path : Path}

theorem modify_of_getElem? {α : Type} {l : List α} {i : ℕ} {a : α} {f : α → α}
    (h : l[i]? = some a) : l.modify i f = l.set i (f a) := by
  obtain ⟨hi,rfl⟩ := List.getElem?_eq_some_iff.mp h
  refine List.ext_getElem (by simp) ?_
  intro j hj hj'
  rw [List.getElem_modify,List.getElem_set]
  split_ifs with hij
  · simp [hij]
  · rfl

theorem find_cons_tab {i : ℕ} (h : root.find (.tab i :: path) = some t) :
    ∃ s, root.tab[i]? = some s ∧ s.find path = some t := by
  rw [Table.find] at h
  exact Option.bind_eq_some_iff.mp h

theorem find_cons_elem {i j : ℕ} (h : root.find (.elem i j :: path) = some t) :
    ∃ a s, root.arr[i]? = some a ∧ a.tab[j]? = some s ∧ s.find path = some t := by
  rw [Table.find] at h
  obtain ⟨a,ha,h⟩ := Option.bind_eq_some_iff.mp h
  obtain ⟨s,hs,h⟩ := Option.bind_eq_some_iff.mp h
  exact ⟨a,s,ha,hs,h⟩

theorem find_append {p q : Path} (h : root.find p = some t) : root.find (p ++ q) = t.find q := by
  induction p generalizing root with
  | nil =>
    cases h
    rfl
  | cons step p ih =>
    cases step with
    | tab i =>
      obtain ⟨s,hs,hfind⟩ := find_cons_tab h
      rw [List.cons_append,Table.find,hs]
      exact ih hfind
    | elem i j =>
      obtain ⟨a,s,ha,hs,hfind⟩ := find_cons_elem h
      rw [List.cons_append,Table.find,ha]
      simp only [bind,Option.bind,hs]
      exact ih hfind

theorem find_valid (hv : root.Valid strtod) (h : root.find path = some t) : t.Valid strtod := by
  induction path generalizing root with
  | nil =>
    cases h
    exact hv
  | cons step path ih =>
    cases step with
    | tab i =>
      obtain ⟨s,hs,hfind⟩ := find_cons_tab h
      exact ih (hv.tab s (List.mem_of_getElem? hs)) hfind
    | elem i j =>
      obtain ⟨a,s,ha,hs,hfind⟩ := find_cons_elem h
      exact ih ((hv.arr a (List.mem_of_getElem? ha)).tab s (List.mem_of_getElem? hs)) hfind

theorem update_find {f : Table → Table} (h : root.find path = some t) :
    (root.update f path).find path = some (f t) := by
  induction path generalizing root with
  | nil =>
    cases h
    rfl
  | cons step path ih =>
    cases step with
    | tab i =>
      obtain ⟨s,hs,hfind⟩ := find_cons_tab h
      have hi := (List.getElem?_eq_some_iff.mp hs).1
      simp only [Table.update,Table.find,modify_of_getElem? hs,List.getElem?_set_self hi]
      exact ih hfind
    | elem i j =>
      obtain ⟨a,s,ha,hs,hfind⟩ := find_cons_elem h
      have hi := (List.getElem?_eq_some_iff.mp ha).1
      have hj := (List.getElem?_eq_some_iff.mp hs).1
      simp only [Table.update,Table.find,modify_of_getElem? ha,List.getElem?_set_self hi,bind,
        Option.bind,modify_of_getElem? hs,List.getElem?_set_self hj]
      exact ih hfind

theorem valid_replaceTab {a : Arr} {j : ℕ} {s new : Table} (h : a.Valid strtod)
    (hs : a.tab[j]? = some s) (hnew : new.Valid strtod) :
    ({ a with tab := a.tab.set j new } : Arr).Valid strtod := by
  have hshape := h.shaped
  have hne : a.tab ≠ [] := by
    rintro hnil
    simp [hnil] at hs
  refine .intro ?_ h.arr ?_
  · rw [Arr.Shaped] at hshape ⊢
    cases hkind : a.kind with
    | none => simp [hkind,hne] at hshape
    | value => simp [hkind,hne] at hshape
    | array => simp [hkind,hne] at hshape
    | table =>
      simp only [hkind] at hshape ⊢
      exact ⟨hshape.1,hshape.2.1,by simpa using hne⟩
  · intro u hu
    rcases List.mem_or_eq_of_mem_set hu with hu | rfl
    · exact h.tab u hu
    · exact hnew

theorem update_valid {f : Table → Table} (hv : root.Valid strtod) (h : root.find path = some t)
    (hf : (f t).Valid strtod) (hkey : (f t).key = t.key) :
    (root.update f path).Valid strtod ∧ (root.update f path).key = root.key := by
  induction path generalizing root with
  | nil =>
    cases h
    exact ⟨hf,hkey⟩
  | cons step path ih =>
    cases step with
    | tab i =>
      obtain ⟨s,hs,hfind⟩ := find_cons_tab h
      obtain ⟨hs',hkey'⟩ := ih (hv.tab s (List.mem_of_getElem? hs)) hfind
      rw [Table.update,modify_of_getElem? hs]
      exact ⟨valid_setTab hv hs hs' hkey',rfl⟩
    | elem i j =>
      obtain ⟨a,s,ha,hs,hfind⟩ := find_cons_elem h
      have hva := hv.arr a (List.mem_of_getElem? ha)
      obtain ⟨hs',-⟩ := ih (hva.tab s (List.mem_of_getElem? hs)) hfind
      rw [Table.update,modify_of_getElem? ha,modify_of_getElem? hs]
      exact ⟨valid_setArr hv ha (valid_replaceTab hva hs hs') rfl,rfl⟩

end paths

end Toml
