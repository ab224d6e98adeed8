import Mathlib.Data.List.TakeWhile
import KvmInfo.Toml.Tokens

namespace Toml
open Exec Caps

-- `header` is the bracket of a header, and `part` and `dot` are the path behind it.
inductive Lexeme where
  | str (v : Bytes)
  | comma
  | equal
  | lbrace
  | rbrace
  | lbracket
  | rbracket
  | newline
  | header
  | part (v : Bytes)
  | dot
  deriving DecidableEq, Repr

def Lexeme.tok : Lexeme → TokenType
  | .str _ => .STRING
  | .comma => .COMMA
  | .equal => .EQUAL
  | .lbrace => .LBRACE
  | .rbrace => .RBRACE
  | .lbracket => .LBRACKET
  | .rbracket => .RBRACKET
  | .newline => .NEWLINE
  | .header => .LBRACKET
  | .part _ => .STRING
  | .dot => .DOT

def Lexeme.text : Lexeme → Bytes
  | .str v => v
  | .comma => [Toml.comma]
  | .equal => [Toml.equal]
  | .lbrace => [Toml.lbrace]
  | .rbrace => [Toml.rbrace]
  | .lbracket => [Toml.lbracket]
  | .rbracket => [Toml.rbracket]
  | .newline => [Toml.newline]
  | .header => [Toml.lbracket]
  | .part v => v
  | .dot => [Toml.dot]

def Lexeme.dotted : Lexeme → Bool
  | .header => true
  | .part _ => true
  | .dot => true
  | _ => false

def Lexeme.inner : Lexeme → Bool
  | .part _ => true
  | .dot => true
  | _ => false

def Scans (dotisspecial : Bool) (v : Bytes) : Prop := v ≠ [] ∧ scanEnd v dotisspecial = .ok []

def Delimited (rest : Bytes) : Prop :=
  ∀ c ∈ rest.head?, bareByte false c = false ∧ c ≠ squote ∧ c ≠ dquote

def Parted (rest : Bytes) : Prop :=
  ∀ c ∈ rest.head?, bareByte true c = false ∧ c ≠ squote ∧ c ≠ dquote

def Outside (ls : List Lexeme) : Prop := ∀ l ∈ ls.head?, l.inner = false

def Lexeme.Stands (ls : List Lexeme) (rest : Bytes) : Lexeme → Prop
  | .str v => Scans false v ∧ Delimited rest ∧ Outside ls
  | .part v => Scans true v ∧ Parted rest
  | .header => True
  | .dot => True
  | _ => Outside ls

def Blank (gap : Bytes) : Prop := ∀ c ∈ gap, isBlank c = true

def Comment (gap : Bytes) : Prop :=
  ∃ blanks text, gap = blanks ++ hash :: text ∧ Blank blanks ∧ newline ∉ text

def Gap (gap : Bytes) (l : Lexeme) : Prop := Blank gap ∨ l = .newline ∧ Comment gap

inductive Spells : List Lexeme → Bytes → Prop where
  | nil {gap : Bytes} (hg : Blank gap ∨ Comment gap) : Spells [] gap
  | cons {gap rest : Bytes} {l : Lexeme} {ls : List Lexeme} (hg : Gap gap l)
      (hs : l.Stands ls rest) (h : Spells ls rest) :
      Spells (l :: ls) (gap ++ l.text ++ rest)

section scan

theorem startsWith_append {s n : Bytes} (rest : Bytes) (h : n.length ≤ s.length) :
    startsWith (s ++ rest) n = startsWith s n := by
  rw [startsWith,startsWith,Bool.eq_iff_iff,List.isPrefixOf_iff_prefix,List.isPrefixOf_iff_prefix]
  exact ⟨fun hp => List.prefix_of_prefix_length_le hp (List.prefix_append s rest) h,
    fun hp => hp.trans (List.prefix_append s rest)⟩

theorem startsWith_quotes {v rest : Bytes} {q : UInt8} (hd : rest.head? ≠ some q) :
    startsWith (v ++ rest) [q,q,q] = startsWith v [q,q,q] := by
  rcases Nat.lt_or_ge v.length 3 with hlt | hge
  · rw [startsWith,startsWith,Bool.eq_iff_iff,List.isPrefixOf_iff_prefix,
      List.isPrefixOf_iff_prefix]
    constructor
    · intro hp
      have hat : (v ++ rest)[v.length]? = some q := by
        obtain ⟨t,ht⟩ := hp
        rw [← ht,List.getElem?_append_left hlt]
        rcases v with _ | ⟨a,_ | ⟨b,_ | ⟨c,v⟩⟩⟩
        · rfl
        · rfl
        · rfl
        · simp only [List.length_cons] at hlt
          omega
      rw [List.getElem?_append_right le_rfl,Nat.sub_self,← List.head?_eq_getElem?] at hat
      exact absurd hat hd
    · intro hp
      exact absurd hp.length_le (by simpa using hlt)
  · exact startsWith_append rest hge

theorem strstr_length {needle s p : Bytes} (h : strstr needle s = some p) :
    needle.length ≤ p.length ∧ p.length ≤ s.length := by
  induction s with
  | nil =>
    rw [strstr] at h
    split_ifs at h with hn
    cases h
    simp [hn]
  | cons c s ih =>
    rw [strstr] at h
    split_ifs at h with hs
    · cases h
      exact ⟨(List.isPrefixOf_iff_prefix.mp hs).length_le,le_rfl⟩
    · exact ⟨(ih h).1,(ih h).2.trans (Nat.le_succ _)⟩

theorem strstr_append {needle s p : Bytes} (rest : Bytes) (hne : needle ≠ [])
    (h : strstr needle s = some p) : strstr needle (s ++ rest) = some (p ++ rest) := by
  induction s with
  | nil =>
    rw [strstr,if_neg hne] at h
    cases h
  | cons c s ih =>
    have hlen := (strstr_length h).1.trans (strstr_length h).2
    rw [strstr] at h
    rw [List.cons_append,strstr,← List.cons_append,startsWith_append rest hlen]
    split_ifs at h ⊢ with hs
    · cases h
      rfl
    · exact ih h

theorem tripleLoop_append {s : Bytes} (rest : Bytes) {hexreq qcnt : ℕ} {escape : Bool}
    (h : tripleLoop hexreq escape qcnt s = .ok ([],3)) :
    tripleLoop hexreq escape qcnt (s ++ rest) = .ok (rest,3) := by
  induction s generalizing hexreq qcnt escape with
  | nil =>
    cases h
    cases rest with
    | nil => rfl
    | cons c rest => rfl
  | cons c s ih =>
    rw [tripleLoop] at h
    rw [List.cons_append,tripleLoop]
    rcases lt_or_ge qcnt 3 with hq | hq
    · rw [if_pos hq] at h ⊢
      cases hstep : escapeStep true hexreq escape c with
      | next hexreq escape =>
        simp only [hstep] at h ⊢
        exact ih h
      | bad msg => simp [hstep] at h
      | plain =>
        simp only [hstep] at h ⊢
        exact ih h
    · rw [if_neg (not_lt.mpr hq)] at h
      cases h

theorem quoteLoop_append {s p : Bytes} (rest : Bytes) {hexreq : ℕ} {escape : Bool} (hne : p ≠ [])
    (h : quoteLoop hexreq escape s = .ok p) :
    quoteLoop hexreq escape (s ++ rest) = .ok (p ++ rest) := by
  induction s generalizing hexreq escape with
  | nil =>
    cases h
    exact absurd rfl hne
  | cons c s ih =>
    rw [quoteLoop] at h
    rw [List.cons_append,quoteLoop]
    cases hstep : escapeStep false hexreq escape c with
    | next hexreq escape =>
      simp only [hstep] at h ⊢
      exact ih h
    | bad msg => simp [hstep] at h
    | plain =>
      simp only [hstep] at h ⊢
      split_ifs at h ⊢
      · cases h
        rfl
      · exact ih h

theorem head?_ne_of_parted {rest : Bytes} (h : Parted rest) :
    rest.head? ≠ some squote ∧ rest.head? ≠ some dquote :=
  ⟨fun hc => (h squote hc).2.1 rfl,fun hc => (h dquote hc).2.2 rfl⟩

theorem ne_nil_of_head? {s : Bytes} {c : UInt8} (h : s.head? = some c) : s ≠ [] := by
  rintro rfl
  cases h

theorem dropWhile_append_of_head? {f : UInt8 → Bool} {s : Bytes} {c : UInt8} (rest : Bytes)
    (h : (s.dropWhile f).head? = some c) : (s ++ rest).dropWhile f = s.dropWhile f ++ rest := by
  rw [List.dropWhile_append,if_neg]
  rw [List.isEmpty_iff]
  exact ne_nil_of_head? h

theorem bareByte_false {dotisspecial : Bool} {c : UInt8} (h : bareByte false c = false) :
    bareByte dotisspecial c = false := by
  rw [bareByte] at h ⊢
  split_ifs with hdot
  · rfl
  · simpa using h

theorem Delimited.parted {rest : Bytes} (h : Delimited rest) : Parted rest :=
  fun c hc => ⟨bareByte_false (h c hc).1,(h c hc).2⟩

theorem scanEnd_append {dotisspecial : Bool} {v rest : Bytes} (hv : Scans dotisspecial v)
    (hp : Parted rest) (hend : ∀ c ∈ rest.head?, bareByte dotisspecial c = false) :
    scanEnd (v ++ rest) dotisspecial = .ok rest := by
  obtain ⟨hne,h⟩ := hv
  obtain ⟨hsq,hdq⟩ := head?_ne_of_parted hp
  have hhead : (v ++ rest).head? = v.head? := List.head?_append_of_ne_nil v hne
  have htail : (v ++ rest).tail = v.tail ++ rest := List.tail_append_of_ne_nil hne
  rw [scanEnd] at h ⊢
  rw [startsWith_quotes hsq,startsWith_quotes hdq,hhead,htail]
  split_ifs at h ⊢ with h3s h3d h1s h1d
  · have hlen : 3 ≤ v.length := (List.isPrefixOf_iff_prefix.mp h3s).length_le
    rw [List.drop_append_of_le_length hlen]
    cases hstr : strstr [squote,squote,squote] (v.drop 3) with
    | none => simp [hstr] at h
    | some p =>
      simp only [hstr,Except.ok.injEq] at h
      have hp : 3 ≤ p.length := (strstr_length hstr).1
      rw [strstr_append rest (by simp) hstr]
      simp only [List.drop_append_of_le_length hp,h,List.nil_append]
  · have hlen : 3 ≤ v.length := (List.isPrefixOf_iff_prefix.mp h3d).length_le
    rw [List.drop_append_of_le_length hlen]
    cases hloop : tripleLoop 0 false 0 (v.drop 3) with
    | error msg => simp [hloop,bind,Except.bind] at h
    | ok r =>
      obtain ⟨p,qcnt⟩ := r
      simp only [hloop,bind,Except.bind] at h
      split_ifs at h with hq
      cases h
      rw [not_not] at hq
      rw [hq] at hloop
      rw [tripleLoop_append rest hloop]
      rfl
  · obtain ⟨hq,hp⟩ : (v.tail.dropWhile fun c => c ≠ newline ∧ c ≠ squote).head? = some squote ∧
        (v.tail.dropWhile fun c => c ≠ newline ∧ c ≠ squote).tail = [] := by
      simp only [] at h
      split_ifs at h with hq
      exact ⟨not_not.mp hq,Except.ok.inj h⟩
    simp only [dropWhile_append_of_head? rest hq,
      List.head?_append_of_ne_nil _ (ne_nil_of_head? hq),hq,
      List.tail_append_of_ne_nil (ne_nil_of_head? hq),hp]
    rfl
  · cases hloop : quoteLoop 0 false v.tail with
    | error msg => simp [hloop,bind,Except.bind] at h
    | ok p =>
      simp only [hloop,bind,Except.bind] at h
      split_ifs at h with hq
      rw [not_not] at hq
      cases p with
      | nil => cases hq
      | cons c p =>
        cases h
        obtain rfl : c = dquote := Option.some.inj hq
        rw [quoteLoop_append rest (List.cons_ne_nil _ _) hloop]
        rfl
  · rw [List.dropWhile_append,Except.ok.inj h]
    cases rest with
    | nil => rfl
    | cons c rest =>
      simp [hend c rfl]

end scan

section lex
variable {dotisspecial : Bool} {lineno : ℕ} {gap rest v : Bytes}

theorem isBlank_cases {c : UInt8} (h : isBlank c = true) :
    c = space ∨ c = tab ∨ c = carriageReturn := by
  simp only [isBlank,Bool.or_eq_true,decide_eq_true_eq] at h
  rcases h with (h | h) | h
  · exact Or.inl h
  · exact Or.inr (Or.inl h)
  · exact Or.inr (Or.inr h)

def Opens (dotisspecial : Bool) (c : UInt8) : Prop :=
  c ≠ hash ∧ isBlank c = false ∧ punctuation dotisspecial c = none

theorem bareByte_opens {c : UInt8} (h : bareByte dotisspecial c = true) :
    Opens dotisspecial c := by
  have hne : ∀ b, bareByte false b = false → bareByte true b = false → c ≠ b := by
    rintro b hf ht rfl
    cases dotisspecial with
    | false => simp [hf] at h
    | true => simp [ht] at h
  refine ⟨hne hash (by decide) (by decide),?_,?_⟩
  · rw [Bool.eq_false_iff]
    intro hb
    rcases isBlank_cases hb with hc | hc | hc
    · exact hne space (by decide) (by decide) hc
    · exact hne tab (by decide) (by decide) hc
    · exact hne carriageReturn (by decide) (by decide) hc
  · rw [punctuation,if_neg,if_neg (hne comma (by decide) (by decide)),
      if_neg (hne equal (by decide) (by decide)),if_neg (hne lbrace (by decide) (by decide)),
      if_neg (hne rbrace (by decide) (by decide)),if_neg (hne lbracket (by decide) (by decide)),
      if_neg (hne rbracket (by decide) (by decide)),if_neg (hne newline (by decide) (by decide))]
    intro hdot
    rw [Bool.and_eq_true,decide_eq_true_eq] at hdot
    rw [bareByte,if_pos (by simp [hdot])] at h
    cases h

theorem scans_head (hv : Scans dotisspecial v) : ∃ c w, v = c :: w ∧ Opens dotisspecial c := by
  obtain ⟨hne,h⟩ := hv
  obtain ⟨c,w,rfl⟩ := List.exists_cons_of_ne_nil hne
  refine ⟨c,w,rfl,?_⟩
  by_cases hs : c = squote
  · rw [hs]
    cases dotisspecial <;> exact ⟨by decide,by decide,by decide⟩
  by_cases hd : c = dquote
  · rw [hd]
    cases dotisspecial <;> exact ⟨by decide,by decide,by decide⟩
  have hstart : ∀ q, c ≠ q → startsWith (c :: w) [q,q,q] = false := by
    intro q hq
    simp [startsWith,List.isPrefixOf,Ne.symm hq]
  simp only [scanEnd,hstart squote hs,hstart dquote hd,List.head?_cons,Option.some.injEq,hs,hd,
    Bool.false_eq_true,if_false,Except.ok.injEq] at h
  refine bareByte_opens ?_
  by_contra hb
  rw [List.dropWhile_cons_of_neg hb] at h
  cases h

theorem skipBlank_blank {blanks : Bytes} (hb : Blank blanks) (p : Bytes) :
    skipBlank false (blanks ++ p) = skipBlank false p := by
  induction blanks with
  | nil => rfl
  | cons c blanks ih =>
    have hc := hb c List.mem_cons_self
    have hh : c ≠ hash := by
      rintro rfl
      exact absurd hc (by decide)
    rw [List.cons_append,skipBlank,if_neg hh,if_pos hc]
    exact ih fun b hm => hb b (List.mem_cons_of_mem c hm)

theorem skipBlank_text {text : Bytes} (ht : newline ∉ text) (p : Bytes) :
    skipBlank true (text ++ p) = skipBlank true p := by
  induction text with
  | nil => rfl
  | cons c text ih =>
    rw [List.mem_cons,not_or] at ht
    rw [List.cons_append,skipBlank,if_neg (Ne.symm ht.1)]
    exact ih ht.2

theorem skipBlank_comment {gap : Bytes} (hg : Comment gap) (p : Bytes) :
    skipBlank false (gap ++ p) = skipBlank true p := by
  obtain ⟨blanks,text,rfl,hb,ht⟩ := hg
  rw [List.append_assoc,skipBlank_blank hb,List.cons_append,skipBlank,if_pos rfl]
  exact skipBlank_text ht p

theorem skipBlank_end (hg : Blank gap ∨ Comment gap) : skipBlank false gap = [] := by
  rw [← List.append_nil gap]
  rcases hg with hb | hc
  · rw [skipBlank_blank hb]
    rfl
  · rw [skipBlank_comment hc]
    rfl

theorem makeToken_end (hg : Blank gap ∨ Comment gap) :
    makeToken dotisspecial lineno gap = .ok (retEof lineno) := by
  rw [makeToken,skipBlank_end hg]

theorem makeToken_str {l : Lexeme} (hl : l ≠ .newline) (hg : Gap gap l)
    (hv : Scans dotisspecial v) (hparted : Parted rest)
    (hrest : ∀ c ∈ rest.head?, bareByte dotisspecial c = false) :
    makeToken dotisspecial lineno (gap ++ v ++ rest) =
      .ok (retToken .STRING lineno (v ++ rest) v.length) := by
  have hblank : Blank gap := by
    rcases hg with hb | ⟨hnl,-⟩
    · exact hb
    · exact absurd hnl hl
  have hend := scanEnd_append hv hparted hrest
  obtain ⟨c,w,rfl,hh,hb,hp⟩ := scans_head hv
  rw [makeToken,List.append_assoc,skipBlank_blank hblank,List.cons_append,skipBlank,if_neg hh,hb,
    if_neg Bool.false_ne_true]
  simp only [hp,scanString]
  rw [← List.cons_append,hend]
  have hlen : ((c :: w ++ rest).length - rest.length) = (c :: w).length := by
    rw [List.length_append,Nat.add_sub_cancel]
  simp only [hlen]

theorem makeToken_sign {l : Lexeme} (hl : l.tok ≠ .STRING) (hg : Gap gap l)
    (hdot : l = .dot → dotisspecial = true) :
    makeToken dotisspecial lineno (gap ++ l.text ++ rest) =
      .ok (retToken l.tok lineno (l.text ++ rest) l.text.length) := by
  have hskip : ∀ c, Gap gap l → (l = .newline → c = newline) → c ≠ hash → isBlank c = false →
      skipBlank false (gap ++ c :: rest) = c :: rest := by
    intro c hg hnl hh hb
    rcases hg with hblank | ⟨heq,hcomment⟩
    · rw [skipBlank_blank hblank,skipBlank,if_neg hh,hb,if_neg Bool.false_ne_true]
    · rw [skipBlank_comment hcomment,hnl heq]
      rfl
  have hone : ∀ c, l.text = [c] → (l = .newline → c = newline) → c ≠ hash → isBlank c = false →
      punctuation dotisspecial c = some l.tok →
      makeToken dotisspecial lineno (gap ++ l.text ++ rest) =
        .ok (retToken l.tok lineno (l.text ++ rest) l.text.length) := by
    intro c htext hnl hh hb hp
    rw [makeToken,htext,List.append_assoc,List.singleton_append,hskip c hg hnl hh hb]
    simp only [hp]
    rfl
  cases l with
  | str v => exact absurd rfl hl
  | part v => exact absurd rfl hl
  | dot =>
    rw [hdot rfl] at hone ⊢
    exact hone _ rfl (by simp) (by decide) (by decide) rfl
  | header => exact hone _ rfl (by simp) (by decide) (by decide) (by cases dotisspecial <;> rfl)
  | comma => exact hone _ rfl (by simp) (by decide) (by decide) (by cases dotisspecial <;> rfl)
  | equal => exact hone _ rfl (by simp) (by decide) (by decide) (by cases dotisspecial <;> rfl)
  | lbrace => exact hone _ rfl (by simp) (by decide) (by decide) (by cases dotisspecial <;> rfl)
  | rbrace => exact hone _ rfl (by simp) (by decide) (by decide) (by cases dotisspecial <;> rfl)
  | lbracket => exact hone _ rfl (by simp) (by decide) (by decide) (by cases dotisspecial <;> rfl)
  | rbracket => exact hone _ rfl (by simp) (by decide) (by decide) (by cases dotisspecial <;> rfl)
  | newline => exact hone _ rfl (by simp) (by decide) (by decide) (by cases dotisspecial <;> rfl)

end lex

inductive Reads : List Lexeme → Token → Prop where
  | eof (lineno : ℕ) : Reads [] (retEof lineno)
  | lexeme {l : Lexeme} {ls : List Lexeme} {rest : Bytes} (lineno : ℕ) (h : Spells ls rest)
      (hs : l.Stands ls rest) :
      Reads (l :: ls) (retToken l.tok lineno (l.text ++ rest) l.text.length)

-- The first lexeme is one string also for the lexer that treats a dot as a token.
def Undotted (ls : List Lexeme) : Prop := ∀ v, ls.head? = some (.str v) → Scans true v

theorem reads_makeToken {ls : List Lexeme} {p : Bytes} (dotisspecial : Bool) (lineno : ℕ)
    (h : Spells ls p) (hdot : dotisspecial = true → Undotted ls)
    (hout : dotisspecial = false → Outside ls) :
    ∃ t, makeToken dotisspecial lineno p = .ok t ∧ Reads ls t := by
  cases h with
  | nil hg => exact ⟨_,makeToken_end hg,.eof lineno⟩
  | @cons gap rest l ls hg hs h =>
    cases hl : l with
    | str v =>
      subst hl
      have hstands : Scans false v ∧ Delimited rest ∧ Outside ls := hs
      obtain ⟨hscan,hd,-⟩ := hstands
      have hscan' : Scans dotisspecial v := by
        cases dotisspecial with
        | false => exact hscan
        | true => exact hdot rfl v rfl
      have hend : ∀ c ∈ rest.head?, bareByte dotisspecial c = false :=
        fun c hc => bareByte_false (hd c hc).1
      exact ⟨_,makeToken_str (by simp) hg hscan' hd.parted hend,.lexeme lineno h hs⟩
    | part v =>
      subst hl
      have hstands : Scans true v ∧ Parted rest := hs
      obtain ⟨hscan,hp⟩ := hstands
      cases dotisspecial with
      | false => exact absurd (hout rfl _ rfl) (by simp [Lexeme.inner])
      | true =>
        exact ⟨_,makeToken_str (by simp) hg hscan hp fun c hc => (hp c hc).1,.lexeme lineno h hs⟩
    | dot =>
      subst hl
      cases dotisspecial with
      | false => exact absurd (hout rfl _ rfl) (by decide)
      | true => exact ⟨_,makeToken_sign (by decide) hg fun _ => rfl,.lexeme lineno h hs⟩
    | _ =>
      subst hl
      exact ⟨_,makeToken_sign (by decide) hg (by simp),.lexeme lineno h hs⟩

theorem Lexeme.Stands.outside {l : Lexeme} {ls : List Lexeme} {rest : Bytes}
    (h : l.Stands ls rest) (hl : l.dotted = false) : Outside ls := by
  cases l with
  | str v => exact h.2.2
  | part v => cases hl
  | header => cases hl
  | dot => cases hl
  | _ => exact h

theorem runs_nextToken {l : Lexeme} {ls : List Lexeme} {t : Token} (dotisspecial : Bool)
    (h : Reads (l :: ls) t) (hdot : dotisspecial = true → Undotted ls)
    (hl : dotisspecial = false → l.dotted = false) :
    ∃ u, Runs (nextToken dotisspecial) t () u ∧ Reads ls u := by
  cases h with
  | @lexeme _ _ rest lineno h hs =>
    obtain ⟨u,hmake,hu⟩ := reads_makeToken dotisspecial
      (lineno + (retToken l.tok lineno (l.text ++ rest) l.text.length).text.count newline) h hdot
      fun hf => hs.outside (hl hf)
    refine ⟨u,runs_get.bind ?_,hu⟩
    have hdrop : (l.text ++ rest).drop l.text.length = rest := List.drop_left
    simp only [retToken] at hmake ⊢
    rw [hdrop,hmake]
    rfl

theorem runs_nextToken_plain {l : Lexeme} {ls : List Lexeme} {t : Token}
    (h : Reads (l :: ls) t) (hl : l.dotted = false) :
    ∃ u, Runs (nextToken false) t () u ∧ Reads ls u :=
  runs_nextToken false h (fun hf => by cases hf) fun _ => hl

theorem runs_nextToken_dotted {l : Lexeme} {ls : List Lexeme} {t : Token}
    (h : Reads (l :: ls) t) (hdot : Undotted ls) :
    ∃ u, Runs (nextToken true) t () u ∧ Reads ls u :=
  runs_nextToken true h (fun _ => hdot) fun hf => by cases hf

theorem runs_nextToken_eof {t : Token} (h : Reads [] t) (dotisspecial : Bool) :
    ∃ u, Runs (nextToken dotisspecial) t () u ∧ Reads [] u := by
  cases h with
  | eof lineno => exact ⟨_,runs_get.bind rfl,.eof _⟩

theorem Reads.tok {l : Lexeme} {ls : List Lexeme} {t : Token} (h : Reads (l :: ls) t) :
    t.tok = l.tok := by
  cases h with
  | lexeme lineno h hs => rfl

theorem Reads.notEof {l : Lexeme} {ls : List Lexeme} {t : Token} (h : Reads (l :: ls) t) :
    t.eof = false := by
  cases h with
  | lexeme lineno h hs => rfl

theorem Reads.text {l : Lexeme} {ls : List Lexeme} {t : Token} (h : Reads (l :: ls) t) :
    t.text = l.text := by
  cases h with
  | lexeme lineno h hs => exact List.take_left

section layout

instance (gap : Bytes) : Decidable (Blank gap) :=
  inferInstanceAs (Decidable (∀ c ∈ gap, isBlank c = true))

instance (dotisspecial : Bool) (v : Bytes) : Decidable (Scans dotisspecial v) :=
  inferInstanceAs (Decidable (v ≠ [] ∧ scanEnd v dotisspecial = .ok []))

instance (rest : Bytes) : Decidable (Delimited rest) :=
  inferInstanceAs (Decidable (∀ c ∈ rest.head?, bareByte false c = false ∧ c ≠ squote ∧ c ≠ dquote))

theorem comment_iff (gap : Bytes) :
    Comment gap ↔ (gap.dropWhile isBlank).head? = some hash ∧
      newline ∉ gap.dropWhile isBlank := by
  constructor
  · rintro ⟨blanks,text,rfl,hblanks,htext⟩
    have hhash : isBlank hash = false := by decide
    rw [List.dropWhile_append,List.dropWhile_eq_nil_iff.mpr hblanks,List.isEmpty_nil,if_pos rfl,
      List.dropWhile_cons_of_neg (by rw [hhash]; exact Bool.false_ne_true)]
    exact ⟨rfl,List.not_mem_cons_of_ne_of_not_mem (by decide) htext⟩
  · rintro ⟨hhead,hnl⟩
    obtain ⟨text,htext⟩ := List.head?_eq_some_iff.mp hhead
    rw [htext] at hnl
    refine ⟨gap.takeWhile isBlank,text,?_,fun c hc => List.mem_takeWhile_imp hc,
      fun h => hnl (List.mem_cons_of_mem hash h)⟩
    rw [← htext,List.takeWhile_append_dropWhile]

instance (gap : Bytes) : Decidable (Comment gap) := decidable_of_iff _ (comment_iff gap).symm

instance (gap : Bytes) (l : Lexeme) : Decidable (Gap gap l) :=
  inferInstanceAs (Decidable (Blank gap ∨ l = .newline ∧ Comment gap))

instance (rest : Bytes) : Decidable (Parted rest) :=
  inferInstanceAs (Decidable (∀ c ∈ rest.head?, bareByte true c = false ∧ c ≠ squote ∧ c ≠ dquote))

instance (ls : List Lexeme) : Decidable (Outside ls) :=
  inferInstanceAs (Decidable (∀ l ∈ ls.head?, l.inner = false))

instance decidableStands (ls : List Lexeme) (rest : Bytes) :
    (l : Lexeme) → Decidable (l.Stands ls rest)
  | .str v => inferInstanceAs (Decidable (Scans false v ∧ Delimited rest ∧ Outside ls))
  | .part v => inferInstanceAs (Decidable (Scans true v ∧ Parted rest))
  | .header => inferInstanceAs (Decidable True)
  | .dot => inferInstanceAs (Decidable True)
  | .comma => inferInstanceAs (Decidable (Outside ls))
  | .equal => inferInstanceAs (Decidable (Outside ls))
  | .lbrace => inferInstanceAs (Decidable (Outside ls))
  | .rbrace => inferInstanceAs (Decidable (Outside ls))
  | .lbracket => inferInstanceAs (Decidable (Outside ls))
  | .rbracket => inferInstanceAs (Decidable (Outside ls))
  | .newline => inferInstanceAs (Decidable (Outside ls))

def layOut (final : Bytes) : List (Bytes × Lexeme) → Bytes
  | [] => final
  | (gap,l) :: layout => gap ++ l.text ++ layOut final layout

def LaidOut (final : Bytes) : List (Bytes × Lexeme) → Prop
  | [] => Blank final ∨ Comment final
  | (gap,l) :: layout =>
      Gap gap l ∧ l.Stands (layout.map Prod.snd) (layOut final layout) ∧ LaidOut final layout

instance decidableLaidOut (final : Bytes) :
    (layout : List (Bytes × Lexeme)) → Decidable (LaidOut final layout)
  | [] => inferInstanceAs (Decidable (Blank final ∨ Comment final))
  | (gap,l) :: layout =>
      have := decidableLaidOut final layout
      inferInstanceAs (Decidable
        (Gap gap l ∧ l.Stands (layout.map Prod.snd) (layOut final layout) ∧ LaidOut final layout))

theorem spells_layOut {final : Bytes} {layout : List (Bytes × Lexeme)} (h : LaidOut final layout) :
    Spells (layout.map Prod.snd) (layOut final layout) := by
  induction layout with
  | nil => exact .nil h
  | cons piece layout ih =>
    obtain ⟨gap,l⟩ := piece
    obtain ⟨hgap,hstands,hlayout⟩ := h
    exact .cons hgap hstands (ih hlayout)

end layout

end Toml
