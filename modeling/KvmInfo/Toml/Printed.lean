import KvmInfo.Toml.Written

namespace Toml
open Exec Caps

def escapeByte (c : UInt8) : Bytes := if c = dquote ∨ c = backslash then [backslash,c] else [c]

def escapeKey (key : Bytes) : Bytes := key.flatMap escapeByte

def quoteKey (key : Bytes) : Bytes := dquote :: (escapeKey key ++ [dquote])

mutual

def Value.lexemes : Value → List Lexeme
  | .raw v => [.str v]
  | .array vs => .lbracket :: (vs.lexemes ++ [.rbracket])
  | .table es => .lbrace :: (es.lexemes ++ [.rbrace])

def Values.lexemes : Values → List Lexeme
  | .nil => []
  | .cons v vs => v.lexemes ++ .comma :: vs.lexemes

def Entries.lexemes : Entries → List Lexeme
  | .nil => []
  | .cons key v es => .str (quoteKey key) :: .equal :: (v.lexemes ++ .comma :: es.lexemes)

end

def fileLexemes : Entries → List Lexeme
  | .nil => []
  | .cons key v es =>
      .str (quoteKey key) :: .equal :: (v.lexemes ++ .newline :: fileLexemes es)

def render (ls : List Lexeme) : Bytes := ls.flatMap Lexeme.text

def print (doc : Entries) : Bytes := render (fileLexemes doc)

mutual

def Value.Printable : Value → Prop
  | .raw v => Scans false v ∧ 0 ∉ v
  | .array vs => vs.Printable
  | .table es => es.Printable

def Values.Printable : Values → Prop
  | .nil => True
  | .cons v vs => v.Printable ∧ vs.Printable

def Entries.Printable : Entries → Prop
  | .nil => True
  | .cons key v es => IsName (some key) ∧ v.Printable ∧ es.Printable

end

section keys
variable {key : Bytes}

theorem escapeByte_eq (c : UInt8) :
    ((c = dquote ∨ c = backslash) ∧ escapeByte c = [backslash,c]) ∨
      (c ≠ dquote ∧ c ≠ backslash) ∧ escapeByte c = [c] := by
  rw [escapeByte]
  split_ifs with h
  · exact Or.inl ⟨h,rfl⟩
  · exact Or.inr ⟨not_or.mp h,rfl⟩

theorem escapeKey_cons (c : UInt8) (key : Bytes) :
    escapeKey (c :: key) = escapeByte c ++ escapeKey key :=
  List.flatMap_cons

theorem normalizeLoop_escape {fuel : ℕ} (hfuel : (escapeKey key).length ≤ fuel) :
    normalizeLoop false fuel (escapeKey key) = .ok key := by
  induction key generalizing fuel with
  | nil => cases fuel <;> rfl
  | cons c key ih =>
    rw [escapeKey_cons] at hfuel ⊢
    rcases escapeByte_eq c with ⟨hc,he⟩ | ⟨hc,he⟩
    · rw [he] at hfuel ⊢
      obtain ⟨fuel,rfl⟩ : ∃ k, fuel = k + 1 := ⟨fuel - 1,by simp at hfuel; omega⟩
      have hread : readEscape false (c :: escapeKey key) = .ok ([c],escapeKey key) := by
        rcases hc with rfl | rfl <;> rfl
      rw [List.cons_append,List.cons_append,List.nil_append,normalizeLoop,if_neg (by simp),hread]
      have hrest : normalizeLoop false fuel (escapeKey key) = .ok key :=
        ih (by simp at hfuel; omega)
      simp only [bind,Except.bind,hrest]
      rfl
    · rw [he] at hfuel ⊢
      obtain ⟨fuel,rfl⟩ : ∃ k, fuel = k + 1 := ⟨fuel - 1,by simp at hfuel; omega⟩
      rw [List.singleton_append,normalizeLoop,if_pos hc.2,ih (by simp at hfuel; omega)]
      rfl

theorem quoteLoop_escape (hnl : newline ∉ key) :
    quoteLoop 0 false (escapeKey key ++ [dquote]) = .ok [dquote] := by
  induction key with
  | nil => rfl
  | cons c key ih =>
    rw [List.mem_cons,not_or] at hnl
    rw [escapeKey_cons]
    rcases escapeByte_eq c with ⟨hc,he⟩ | ⟨hc,he⟩
    · rw [he]
      refine Eq.trans ?_ (ih hnl.2)
      rcases hc with rfl | rfl <;> rfl
    · have hstep : escapeStep false 0 false c = .plain := by
        rw [escapeStep,if_neg Bool.false_ne_true,if_neg (by simp),if_neg hc.2]
      rw [he,List.singleton_append,List.cons_append,quoteLoop,hstep]
      simp only [Ne.symm hnl.1,hc.1,or_self,if_false]
      exact ih hnl.2

theorem quoteKey_second (key : Bytes) :
    ¬((quoteKey key)[1]? = some dquote ∧ (quoteKey key)[2]? = some dquote) := by
  rintro ⟨hone,htwo⟩
  cases key with
  | nil => cases htwo
  | cons c key =>
    rw [quoteKey,escapeKey_cons] at hone
    rcases escapeByte_eq c with ⟨-,he⟩ | ⟨hc,he⟩
    · rw [he] at hone
      cases hone
    · rw [he] at hone
      exact hc.1 (Option.some.inj hone)

theorem scans_quoteKey (hnl : newline ∉ key) (dotisspecial : Bool) :
    Scans dotisspecial (quoteKey key) := by
  have hs : startsWith (quoteKey key) [squote,squote,squote] = false := rfl
  have hd : startsWith (quoteKey key) [dquote,dquote,dquote] = false := by
    rw [Bool.eq_false_iff]
    intro h
    obtain ⟨t,ht⟩ := List.isPrefixOf_iff_prefix.mp h
    refine quoteKey_second key ?_
    rw [← ht]
    exact ⟨rfl,rfl⟩
  have hq : quoteLoop 0 false (quoteKey key).tail = .ok [dquote] := quoteLoop_escape hnl
  refine ⟨List.cons_ne_nil _ _,?_⟩
  rw [scanEnd,hs,hd,hq]
  rfl

theorem cString_eq {s : Bytes} (h : 0 ∉ s) : cString s = s := by
  rw [cString,List.takeWhile_eq_self_iff]
  intro c hc
  rw [decide_eq_true_eq]
  rintro rfl
  exact h hc

theorem quotedKey_dquote {t : Token} {src ret : Bytes} (hwidth : quoteWidth t.ptr dquote = 1)
    (hsrc : (t.ptr.take (t.len - 1)).drop 1 = src) (h : normalizeString src false = .ok ret) :
    quotedKey t dquote = .ok (cString ret) := by
  rw [quotedKey]
  simp only [hwidth,hsrc,h]
  rw [if_neg (by decide)]

theorem quoteKey_plain (hnul : 0 ∉ key) : 0 ∉ quoteKey key := by
  rw [quoteKey,List.mem_cons,List.mem_append,not_or,not_or]
  refine ⟨by decide,?_,by decide⟩
  intro h
  obtain ⟨c,hc,hmem⟩ := List.mem_flatMap.mp h
  rcases escapeByte_eq c with ⟨-,he⟩ | ⟨-,he⟩
  · rw [he,List.mem_cons,List.mem_singleton] at hmem
    rcases hmem with hmem | rfl
    · exact absurd hmem (by decide)
    · exact hnul hc
  · rw [he,List.mem_singleton] at hmem
    rw [hmem] at hnul
    exact hnul hc

theorem quoteKey_names (h : IsName (some key)) : Names key (quoteKey key) := by
  obtain ⟨_,hkey,hnl,hnul⟩ := h
  cases hkey
  refine ⟨scans_quoteKey hnl true,?_⟩
  rw [normalizeKey_quoted (c := dquote) rfl (Or.inr rfl)]
  refine ⟨?_,hnl⟩
  have hsrc : ((quoteKey key).take ((quoteKey key).length - 1)).drop 1 = escapeKey key := by
    rw [quoteKey,List.length_cons,List.length_append,List.length_singleton,Nat.add_sub_cancel,
      List.take_succ_cons,List.take_left' rfl]
    rfl
  have hwidth : quoteWidth (quoteKey key) dquote = 1 := if_neg (quoteKey_second key)
  rw [quotedKey_dquote hwidth hsrc (normalizeLoop_escape le_rfl),cString_eq hnul]

end keys

section lexemes
def Settled : List Lexeme → Prop
  | [] => True
  | l :: ls =>
      l.dotted = false ∧
        (∀ v, l = .str v → (Scans false v ∧ 0 ∉ v) ∧ ∀ w, ls.head? ≠ some (.str w)) ∧ Settled ls

theorem delimited_render {ls : List Lexeme} (hs : Settled ls)
    (h : ∀ w, ls.head? ≠ some (.str w)) : Delimited (render ls) := by
  cases ls with
  | nil =>
    intro c hc
    cases hc
  | cons l ls =>
    intro c hc
    cases l with
    | str w => exact absurd rfl (h w)
    | part w => exact absurd hs.1 (by simp [Lexeme.dotted])
    | dot => exact absurd hs.1 (by simp [Lexeme.dotted])
    | _ =>
      cases hc
      decide

theorem settled_outside {ls : List Lexeme} (h : Settled ls) : Outside ls := by
  cases ls with
  | nil =>
    intro l hl
    cases hl
  | cons l ls =>
    intro l' hl'
    cases hl'
    cases l <;> first | rfl | exact h.1

theorem settled_stands {l : Lexeme} {ls : List Lexeme} (h : Settled (l :: ls)) :
    l.Stands ls (render ls) := by
  obtain ⟨hplain,hstr,hs⟩ := h
  have hout := settled_outside hs
  cases l with
  | str v => exact ⟨(hstr v rfl).1.1,delimited_render hs (hstr v rfl).2,hout⟩
  | part v => cases hplain
  | header => cases hplain
  | dot => cases hplain
  | _ => exact hout

theorem spells_render {ls : List Lexeme} (h : Settled ls) : Spells ls (render ls) := by
  induction ls with
  | nil => exact .nil (Or.inl fun c hc => by cases hc)
  | cons l ls ih =>
    have hgap : Gap [] l := Or.inl fun c hc => by cases hc
    exact Spells.cons hgap (settled_stands h) (ih h.2.2)

theorem render_plain {ls : List Lexeme} (h : Settled ls) : 0 ∉ render ls := by
  induction ls with
  | nil => simp [render]
  | cons l ls ih =>
    rw [render,List.flatMap_cons,List.mem_append,not_or]
    refine ⟨?_,ih h.2.2⟩
    cases l with
    | str v => exact (h.2.1 v rfl).1.2
    | part v => exact absurd h.1 (by simp [Lexeme.dotted])
    | _ => decide

theorem settled_append {ls ls' : List Lexeme} {l : Lexeme} (h : Settled ls)
    (h' : Settled (l :: ls')) (hl : ∀ w, l ≠ .str w) : Settled (ls ++ l :: ls') := by
  induction ls with
  | nil => exact h'
  | cons first ls ih =>
    refine ⟨h.1,fun v hv => ⟨(h.2.1 v hv).1,fun w => ?_⟩,ih h.2.2⟩
    cases ls with
    | nil =>
      intro hw
      exact hl w (Option.some.inj hw)
    | cons second ls => exact (h.2.1 v hv).2 w

theorem settled_sign {ls : List Lexeme} {l : Lexeme} (hl : ∀ w, l ≠ .str w) (h : Settled ls)
    (hd : l.dotted = false := by rfl) : Settled (l :: ls) :=
  ⟨hd,fun v hv => absurd hv (hl v),h⟩

theorem settled_key {key : Bytes} {ls : List Lexeme} (h : IsName (some key)) (hs : Settled ls) :
    Settled (.str (quoteKey key) :: .equal :: ls) := by
  obtain ⟨_,hkey,hnl,hnul⟩ := h
  cases hkey
  refine ⟨rfl,fun v hv => ?_,settled_sign (by simp) hs⟩
  cases hv
  exact ⟨⟨scans_quoteKey hnl false,quoteKey_plain hnul⟩,by simp⟩

mutual

theorem value_settled : ∀ (v : Value), v.Printable → Settled v.lexemes
  | .raw v, h => ⟨rfl,fun w hw => (by cases hw; exact ⟨h,by simp⟩),trivial⟩
  | .array vs, h => settled_sign (by simp)
      (settled_append (values_settled vs h) (settled_sign (by simp) trivial) (by simp))
  | .table es, h => settled_sign (by simp)
      (settled_append (entries_settled es h) (settled_sign (by simp) trivial) (by simp))

theorem values_settled : ∀ (vs : Values), vs.Printable → Settled vs.lexemes
  | .nil, _ => trivial
  | .cons v vs, h => settled_append (value_settled v h.1)
      (settled_sign (by simp) (values_settled vs h.2)) (by simp)

theorem entries_settled : ∀ (es : Entries), es.Printable → Settled es.lexemes
  | .nil, _ => trivial
  | .cons _ v es, h => settled_key h.1 (settled_append (value_settled v h.2.1)
      (settled_sign (by simp) (entries_settled es h.2.2)) (by simp))

end

mutual

theorem value_writes : ∀ (v : Value), v.Printable → v.Writes v.lexemes
  | .raw v, _ => .raw v
  | .array vs, h => .array 0 (values_write vs h)
  | .table es, h => .table 0 (entries_write es h)

theorem values_write : ∀ (vs : Values), vs.Printable → vs.Writes vs.lexemes
  | .nil, _ => .nil
  | .cons v vs, h => .cons 0 0 (value_writes v h.1) (values_write vs h.2)

theorem entries_write : ∀ (es : Entries), es.Printable → es.Writes es.lexemes
  | .nil, _ => .nil
  | .cons _ v es, h =>
      .cons 0 0 (quoteKey_names h.1) (value_writes v h.2.1) (entries_write es h.2.2)

end

theorem file_writes : ∀ (doc : Entries), doc.Printable → WritesFile doc (fileLexemes doc)
  | .nil, _ => .nil 0
  | .cons _ v es, h => .cons 0 (quoteKey_names h.1) (value_writes v h.2.1) (file_writes es h.2.2)

theorem file_settled : ∀ (doc : Entries), doc.Printable → Settled (fileLexemes doc)
  | .nil, _ => trivial
  | .cons _ v es, h => settled_key h.1 (settled_append (value_settled v h.2.1)
      (settled_sign (by simp) (file_settled es h.2.2)) (by simp))

theorem spells_print {doc : Entries} (h : doc.Printable) :
    Spells (fileLexemes doc) (cString (print doc)) := by
  have hsettled := file_settled doc h
  have hplain : cString (print doc) = print doc := cString_eq (render_plain hsettled)
  rw [hplain]
  exact spells_render hsettled

end lexemes

theorem tomlParse_print (strtod : Bytes → Bool) {doc : Entries} (hdoc : doc.WellFormed strtod)
    (hnames : doc.names.Nodup) (hprint : doc.Printable) :
    tomlParse strtod (enoughFuel (print doc)) (print doc) =
      .ok (doc.fill strtod (Table.empty none false)) :=
  tomlParse_reads strtod hdoc hnames (file_writes doc hprint) (spells_print hprint)

theorem tomlParse_print_exts :
    tomlParse digitsOnly (enoughFuel (print extsDoc)) (print extsDoc) =
      .ok (extsDoc.fill digitsOnly (Table.empty none false)) :=
  tomlParse_print digitsOnly extsDoc_wellFormed (by decide)
    ⟨⟨_,rfl,by decide,by decide⟩,⟨⟨by decide,by decide⟩,trivial⟩,trivial⟩

end Toml
