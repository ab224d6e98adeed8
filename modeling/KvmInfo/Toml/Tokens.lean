import KvmInfo.Library.Hoare
import KvmInfo.Toml.Parser

namespace Toml
open Exec Caps

theorem skipBlank_eq (comment : Bool) (p : Bytes) :
    ∃ gap, p = gap ++ skipBlank comment p ∧ newline ∉ gap := by
  induction p generalizing comment with
  | nil => exact ⟨[],by simp [skipBlank],by simp⟩
  | cons c p ih =>
    have hskip : ∀ comment, c ≠ newline →
        ∃ gap, c :: p = gap ++ skipBlank comment p ∧ newline ∉ gap := by
      intro comment hc
      obtain ⟨gap,hp,hgap⟩ := ih comment
      exact ⟨c :: gap,by rw [List.cons_append,← hp],by simp [hgap,hc.symm]⟩
    cases comment with
    | true =>
      rw [skipBlank]
      split_ifs with hc
      · exact ⟨[],rfl,by simp⟩
      · exact hskip true hc
    | false =>
      rw [skipBlank]
      split_ifs with hc hb
      · exact hskip true (by rw [hc]; decide)
      · refine hskip false ?_
        rintro rfl
        exact absurd hb (by decide)
      · exact ⟨[],rfl,by simp⟩

def Token.Solid (t : Token) : Prop :=
  t.tok = .STRING ∧ t.ptr ≠ [] ∨ t.len = 1 ∨ t.eof = true ∧ t.ptr = []

theorem makeToken_ok {dotisspecial : Bool} {lineno : ℕ} {p : Bytes} {t : Token}
    (h : makeToken dotisspecial lineno p = .ok t) :
    (∃ gap, p = gap ++ t.ptr ∧ newline ∉ gap) ∧ t.lineno = lineno ∧ t.len ≤ t.ptr.length ∧
      t.Solid ∧ (t.eof = true → t.tok = .NEWLINE ∧ t.ptr = []) := by
  obtain ⟨gap,hp,hgap⟩ := skipBlank_eq false p
  rw [makeToken] at h
  cases hs : skipBlank false p with
  | nil =>
    rw [hs] at h
    cases h
    exact ⟨⟨gap,by rw [hs] at hp; exact hp,hgap⟩,rfl,le_rfl,Or.inr (Or.inr ⟨rfl,rfl⟩),
      fun _ => ⟨rfl,rfl⟩⟩
  | cons c q =>
    rw [hs] at h hp
    cases hc : punctuation dotisspecial c with
    | some tok =>
      simp only [hc] at h
      cases h
      exact ⟨⟨gap,hp,hgap⟩,rfl,by simp [retToken],Or.inr (Or.inl rfl),by simp [retToken]⟩
    | none =>
      simp only [hc,scanString] at h
      cases hend : scanEnd (c :: q) dotisspecial with
      | error msg => simp [hend] at h
      | ok r =>
        rw [hend] at h
        cases h
        exact ⟨⟨gap,hp,hgap⟩,rfl,by simp [retToken],Or.inl ⟨rfl,List.cons_ne_nil c q⟩,
          by simp [retToken]⟩

theorem makeToken_error {dotisspecial : Bool} {lineno : ℕ} {p : Bytes} {e : Error}
    (h : makeToken dotisspecial lineno p = .error e) : ∃ msg, e = .syntaxError lineno msg := by
  rw [makeToken] at h
  split at h
  · cases h
  · split at h
    · cases h
    · rw [scanString] at h
      split at h
      · cases h
        exact ⟨_,rfl⟩
      · cases h

structure Token.At (conf : Bytes) (t : Token) : Prop where
  place : ∃ pre, conf = pre ++ t.ptr ∧ t.lineno = 1 + pre.count newline
  fits : t.len ≤ t.ptr.length
  ends : t.eof = true → t.tok = .NEWLINE ∧ t.ptr = []

def lines (conf : Bytes) : ℕ := 1 + conf.count newline

theorem Token.At.line {conf : Bytes} {t : Token} (h : t.At conf) :
    1 ≤ t.lineno ∧ t.lineno ≤ lines conf := by
  obtain ⟨pre,hconf,hline⟩ := h.place
  rw [lines,hconf,List.count_append,hline]
  omega

theorem Token.At.not_eof {conf : Bytes} {t : Token} (h : t.At conf) (hn : t.tok ≠ .NEWLINE) :
    t.eof = false := by
  cases heof : t.eof with
  | false => rfl
  | true => exact absurd (h.ends heof).1 hn

theorem startToken_at (conf : Bytes) : (startToken conf).At conf :=
  ⟨⟨[],rfl,rfl⟩,Nat.zero_le _,fun h => by cases h⟩

def Error.lineno : Error → Option ℕ
  | .internal _ => none
  | .syntaxError lineno _ => some lineno
  | .badKey lineno => some lineno
  | .keyExists lineno _ => some lineno

def Located (conf : Bytes) : Stop → Prop
  | .error (.internal line) => line = 1062
  | .error e => ∀ n ∈ e.lineno, 1 ≤ n ∧ n ≤ lines conf
  | .badPointer => False
  | .outOfFuel => True

def Within (conf : Bytes) (n : ℕ) (t : Token) : Prop := t.At conf ∧ t.Solid ∧ t.ptr.length ≤ n

theorem Within.mono {conf : Bytes} {n k : ℕ} {t : Token} (h : Within conf n t) (hk : n ≤ k) :
    Within conf k t :=
  ⟨h.1,h.2.1,h.2.2.trans hk⟩

theorem Within.pos {conf : Bytes} {n : ℕ} {t : Token} (h : Within conf n t)
    (heof : t.eof = false) : 1 ≤ n := by
  obtain ⟨hat,hsolid,hn⟩ := h
  have hfits := hat.fits
  rcases hsolid with ⟨-,hne⟩ | hlen | ⟨htrue,-⟩
  · have := List.length_pos_iff.mpr hne
    omega
  · omega
  · rw [heof] at htrue
    cases htrue

section tokens
variable {conf : Bytes} {t : Token} {α : Type} {P : Token → Prop} {Q : α → Token → Prop}

theorem triple_fail {e : Error} (h : ∀ t, P t → Located conf (.error e)) :
    Triple P (fail e) Q (Located conf) :=
  triple_throw h

theorem located {e : Error} {t : Token} (h : e.lineno = some t.lineno) (ht : t.At conf) :
    Located conf (.error e) := by
  cases e with
  | internal line => cases h
  | syntaxError lineno msg =>
    rintro n ⟨⟩
    cases h
    exact ht.line
  | badKey lineno =>
    rintro n ⟨⟩
    cases h
    exact ht.line
  | keyExists lineno key =>
    rintro n ⟨⟩
    cases h
    exact ht.line

theorem triple_failHere {msg : String} (h : ∀ t, P t → t.At conf) :
    Triple P (failHere msg) Q (Located conf) := by
  exact triple_get fun t ht => triple_fail fun _ _ => located rfl (h t ht)

theorem nextToken_at {dotisspecial : Bool} (ht : t.At conf) :
    Triple (fun s => s = t) (nextToken dotisspecial)
      (fun _ s => Within conf (t.ptr.length - t.len) s) (Located conf) := by
  obtain ⟨⟨pre,hconf,hline⟩,hfits,-⟩ := ht
  refine triple_get fun s hs => ?_
  subst hs
  have hconf' : conf = (pre ++ s.text) ++ s.ptr.drop s.len := by
    rw [List.append_assoc,Token.text,List.take_append_drop,← hconf]
  cases hm : makeToken dotisspecial (s.lineno + s.text.count newline) (s.ptr.drop s.len) with
  | error e =>
    obtain ⟨msg,rfl⟩ := makeToken_error hm
    refine triple_fail fun _ _ n hn => ?_
    cases hn
    have hle := congrArg (List.count newline) hconf'
    simp only [List.count_append] at hle
    rw [lines]
    omega
  | ok s' =>
    refine triple_set fun _ _ => ?_
    obtain ⟨⟨gap,hgap,hnl⟩,hlineno,hlen,hsolid,heof⟩ := makeToken_ok hm
    refine ⟨⟨⟨pre ++ s.text ++ gap,?_,?_⟩,hlen,heof⟩,hsolid,?_⟩
    · rw [List.append_assoc,← hgap,← hconf']
    · rw [hlineno,List.count_append,List.count_append,List.count_eq_zero.mpr hnl]
      omega
    · have hle := congrArg List.length hgap
      simp only [List.length_drop,List.length_append] at hle
      omega

theorem nextToken_within {n : ℕ} {dotisspecial : Bool} (h : ∀ t, P t → Within conf n t) :
    Triple P (nextToken dotisspecial) (fun _ s => Within conf n s) (Located conf) :=
  triple_fix fun t ht => (nextToken_at (h t ht).1).post fun _ _ hs =>
    hs.mono (Nat.sub_le_of_le_add (by have := (h t ht).2.2; omega))

theorem nextToken_eats {n : ℕ} {dotisspecial : Bool}
    (h : ∀ t, P t → Within conf n t ∧ t.tok ≠ .STRING ∧ t.eof = false) :
    Triple P (nextToken dotisspecial) (fun _ s => Within conf (n - 1) s) (Located conf) := by
  refine triple_fix fun t ht => ?_
  obtain ⟨⟨hat,hsolid,hn⟩,hstr,heof⟩ := h t ht
  refine (nextToken_at hat).post fun _ _ hs => hs.mono ?_
  rcases hsolid with ⟨hs,-⟩ | hlen | ⟨htrue,-⟩
  · exact absurd hs hstr
  · omega
  · rw [heof] at htrue
    cases htrue

end tokens

end Toml
