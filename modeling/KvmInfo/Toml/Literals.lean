import Mathlib.Data.List.DropRight
import KvmInfo.Toml.Strings

namespace Toml
open Caps

inductive Joins (hit : Bytes → Prop) : Bytes → Bytes → Prop where
  | nil : Joins hit [] []
  | fold {w out : Bytes} (h : hit w) (hs : Joins hit (w.dropWhile isSpacing) out) :
      Joins hit (backslash :: w) out
  | keep {c : UInt8} {w out : Bytes} (h : c = backslash → ¬hit w) (hs : Joins hit w out) :
      Joins hit (c :: w) (c :: out)

def Breaks (w : Bytes) : Prop := [newline] <+: w ∨ [carriageReturn,newline] <+: w

section joins
variable {p q : Bytes → Prop} {s t u w out : Bytes}

theorem backslash_spacing : isSpacing backslash = false := by
  decide

theorem Joins.spacing (h : Joins p w out) :
    out.takeWhile isSpacing = w.takeWhile isSpacing ∧
      Joins p (w.dropWhile isSpacing) (out.dropWhile isSpacing) := by
  induction h with
  | nil => exact ⟨rfl,.nil⟩
  | @fold w out hit hs ih =>
    have htake : out.takeWhile isSpacing = [] := by
      have hsplit := List.takeWhile_append_dropWhile (p := isSpacing) (l := w.dropWhile isSpacing)
      rw [List.dropWhile_idempotent,List.append_left_eq_self] at hsplit
      rw [ih.1,hsplit]
    have hdrop : out.dropWhile isSpacing = out := by
      conv_rhs => rw [← List.takeWhile_append_dropWhile (p := isSpacing) (l := out),htake]
      rfl
    rw [List.takeWhile_cons_of_neg (by simp [backslash_spacing]),
      List.dropWhile_cons_of_neg (by simp [backslash_spacing]),hdrop]
    exact ⟨htake,.fold hit hs⟩
  | @keep c w out hit hs ih =>
    cases hc : isSpacing c with
    | true =>
      rw [List.takeWhile_cons_of_pos hc,List.takeWhile_cons_of_pos hc,List.dropWhile_cons_of_pos hc,
        List.dropWhile_cons_of_pos hc,ih.1]
      exact ⟨rfl,ih.2⟩
    | false =>
      have hneg : ¬isSpacing c = true := by simp [hc]
      rw [List.takeWhile_cons_of_neg hneg,List.takeWhile_cons_of_neg hneg,
        List.dropWhile_cons_of_neg hneg,List.dropWhile_cons_of_neg hneg]
      exact ⟨rfl,.keep hit hs⟩

theorem Joins.unique (h : Joins p s t) (h' : Joins p s u) : t = u := by
  induction h generalizing u with
  | nil =>
    cases h'
    rfl
  | fold hit hs ih =>
    cases h' with
    | fold hit' hs' => exact ih hs'
    | keep hit' hs' => exact absurd hit (hit' rfl)
  | keep hit hs ih =>
    cases h' with
    | fold hit' hs' => exact absurd hit' (hit rfl)
    | keep hit' hs' => rw [ih hs']

-- What the second pass looks for is decided by spacing, which the first pass leaves where it is.
theorem Joins.comp (hq : ∀ w, q w ↔ q (w.takeWhile isSpacing)) {n : ℕ} (hn : s.length ≤ n)
    (h : Joins p s t) (h' : Joins q t u) : Joins (fun w => p w ∨ q w) s u := by
  induction n generalizing s t u with
  | zero =>
    rw [List.length_eq_zero_iff.mp (Nat.le_zero.mp hn)] at h ⊢
    cases h
    cases h'
    exact .nil
  | succ n ih =>
    cases h with
    | nil =>
      cases h'
      exact .nil
    | @fold w out hit hs =>
      have hlen : (w.dropWhile isSpacing).length ≤ n :=
        (List.length_dropWhile_le _ _).trans (Nat.le_of_succ_le_succ hn)
      exact .fold (Or.inl hit) (ih hlen hs h')
    | @keep c w out hit hs =>
      have hw : w.length ≤ n := Nat.le_of_succ_le_succ hn
      have hagree : q out ↔ q w := by rw [hq out,hq w,hs.spacing.1]
      cases h' with
      | fold hit' hs' =>
        have hlen := (List.length_dropWhile_le isSpacing w).trans hw
        exact .fold (Or.inr (hagree.mp hit')) (ih hlen hs.spacing.2 hs')
      | keep hit' hs' =>
        refine .keep ?_ (ih hw hs hs')
        rintro hc (hp | hq')
        · exact hit hc hp
        · exact hit' hc (hagree.mpr hq')

end joins

section rounds
variable {rest str out : Bytes}

theorem startsWith_backslash {c : UInt8} {s : Bytes} :
    startsWith (c :: s) (backslash :: rest) = true ↔ c = backslash ∧ rest <+: s := by
  have hcons : (backslash :: rest).isPrefixOf (c :: s) = true ↔ backslash = c ∧ rest <+: s :=
    List.isPrefixOf_iff_prefix.trans List.cons_prefix_cons
  rw [startsWith,hcons,eq_comm]

theorem joins_none (h : strstr (backslash :: rest) str = none) :
    Joins (fun w => rest <+: w) str str := by
  induction str with
  | nil => exact .nil
  | cons c s ih =>
    rw [strstr] at h
    split_ifs at h with hs
    exact .keep (fun hc hp => hs (startsWith_backslash.mpr ⟨hc,hp⟩)) (ih h)

theorem joins_some {p : Bytes} (h : strstr (backslash :: rest) str = some p)
    (hout : Joins (fun w => rest <+: w) (p.tail.dropWhile isSpacing) out) :
    Joins (fun w => rest <+: w) str (str.take (str.length - p.length) ++ out) := by
  induction str with
  | nil => cases h
  | cons c s ih =>
    rw [strstr] at h
    split_ifs at h with hs
    · cases h
      obtain ⟨rfl,hp⟩ := startsWith_backslash.mp hs
      rw [Nat.sub_self]
      exact .fold hp hout
    · have hle := (strstr_length h).2
      have htake : (c :: s).length - p.length = s.length - p.length + 1 := by
        rw [List.length_cons]
        omega
      rw [htake]
      exact .keep (fun hc hp => hs (startsWith_backslash.mpr ⟨hc,hp⟩)) (ih h)

theorem killRound_joins (rest : Bytes) {fuel : ℕ} (hfuel : str.length ≤ fuel) :
    Joins (fun w => rest <+: w) str (killRound (backslash :: rest) fuel str) := by
  induction fuel generalizing str with
  | zero =>
    rw [List.length_eq_zero_iff.mp (Nat.le_zero.mp hfuel)]
    exact .nil
  | succ fuel ih =>
    rw [killRound]
    cases h : strstr (backslash :: rest) str with
    | none => exact joins_none h
    | some p =>
      apply joins_some h
      apply ih
      have hpos := (strstr_length h).1
      have hlen := (strstr_length h).2
      have hdrop := List.length_dropWhile_le isSpacing p.tail
      rw [List.length_cons] at hpos
      rw [List.length_tail] at hdrop
      omega

theorem prefix_takeWhile {w : Bytes} (hrest : ∀ c ∈ rest, isSpacing c = true) :
    rest <+: w ↔ rest <+: w.takeWhile isSpacing := by
  constructor
  · rintro ⟨v,rfl⟩
    rw [List.takeWhile_append_of_pos hrest]
    exact List.prefix_append _ _
  · intro h
    have hspacing := List.takeWhile_prefix (l := w) isSpacing
    exact h.trans hspacing

theorem kill_joins (str : Bytes) : Joins Breaks str (killLineEndingBackslash str) := by
  have hround := killRound_joins [newline] (le_refl str.length)
  have hround' := killRound_joins [carriageReturn,newline]
    (le_refl (killRound [backslash,newline] str.length str).length)
  have hspacing : ∀ c ∈ [carriageReturn,newline], isSpacing c = true := by decide +kernel
  exact hround.comp (fun w => prefix_takeWhile hspacing) le_rfl hround'

end rounds

section literals

structure Literal where
  key : Bytes
  multiline : Bool
  text : Bytes

def literal (multiline : Bool) (text : Bytes) : Bytes :=
  if multiline then [squote,squote,squote] ++ newline :: text ++ [squote,squote,squote]
  else [squote] ++ text ++ [squote]

def literals (ls : List Literal) : Entries :=
  raws (ls.map fun l => (l.key,literal l.multiline l.text))

-- The text stays on its line, or the first three quotes in a row are those at its end.
def Quotable (multiline : Bool) (text : Bytes) : Prop :=
  0 ∉ text ∧
    if multiline then
      strstr [squote,squote,squote] (text ++ [squote,squote,squote]) = some [squote,squote,squote]
    else newline ∉ text ∧ squote ∉ text

instance (multiline : Bool) (text : Bytes) : Decidable (Quotable multiline text) :=
  inferInstanceAs (Decidable (_ ∧ _))

def Literal.Means (l : Literal) (out : Bytes) : Prop :=
  if l.multiline then Joins Breaks l.text out else out = l.text

variable {text : Bytes}

theorem literal_single (hquote : squote ∉ text) :
    startsWith (literal false text) [squote,squote,squote] = false := by
  cases text with
  | nil => rfl
  | cons c w =>
    rw [List.mem_cons,not_or] at hquote
    rw [startsWith,Bool.eq_false_iff]
    intro h
    have hstart := List.isPrefixOf_iff_prefix.mp h
    have hsecond := (List.cons_prefix_cons.mp (List.cons_prefix_cons.mp hstart).2).1
    exact hquote.1 hsecond

theorem literal_scans {multiline : Bool} (h : Quotable multiline text) (dotisspecial : Bool) :
    Scans dotisspecial (literal multiline text) := by
  cases multiline with
  | true =>
    have hstart : startsWith (literal true text) [squote,squote,squote] = true := rfl
    have hfind : strstr [squote,squote,squote] ((literal true text).drop 3) =
        some [squote,squote,squote] := h.2
    refine ⟨List.cons_ne_nil _ _,?_⟩
    rw [scanEnd,hstart,hfind]
    rfl
  | false =>
    obtain ⟨-,hline,hquote⟩ := h
    have hd : startsWith (literal false text) [dquote,dquote,dquote] = false := rfl
    have hhead : (literal false text).head? = some squote := rfl
    have hplain : ∀ c ∈ text, decide (c ≠ newline ∧ c ≠ squote) = true := by
      intro c hc
      rw [decide_eq_true_eq]
      exact ⟨fun heq => hline (heq ▸ hc),fun heq => hquote (heq ▸ hc)⟩
    have hdrop : (literal false text).tail.dropWhile (fun c => c ≠ newline ∧ c ≠ squote) = [squote] :=
      List.dropWhile_append_of_pos hplain
    refine ⟨List.cons_ne_nil _ _,?_⟩
    rw [scanEnd,literal_single hquote,hd,hhead]
    simp only [hdrop]
    rfl

theorem literal_plain {multiline : Bool} (h : Quotable multiline text) :
    0 ∉ literal multiline text := by
  have htext := h.1
  have hquote : (0 : UInt8) ≠ squote ∧ (0 : UInt8) ≠ newline := by decide
  cases multiline <;> simp [literal,htext,hquote]

theorem tomlRtos_single (hquote : squote ∉ text) : tomlRtos (literal false text) = some text := by
  have hhead : (literal false text).head? = some squote := rfl
  have hbetween : between 1 squote (literal false text) = some text := between_quotes 1 squote text
  rw [tomlRtos,if_pos hhead,literal_single hquote]
  exact hbetween

theorem tomlRtos_triple (text : Bytes) :
    tomlRtos (literal true text) = some (killLineEndingBackslash text) := by
  have hhead : (literal true text).head? = some squote := rfl
  have hstart : startsWith (literal true text) [squote,squote,squote] = true := rfl
  have hbetween : between 3 squote (literal true text) = some (newline :: text) :=
    between_quotes 3 squote (newline :: text)
  rw [tomlRtos,if_pos hhead,hstart,if_pos rfl,hbetween]
  rfl

theorem tomlRtos_means {l : Literal} (h : Quotable l.multiline l.text) (out : Bytes) :
    tomlRtos (literal l.multiline l.text) = some out ↔ l.Means out := by
  rw [Literal.Means]
  cases hl : l.multiline with
  | true =>
    rw [tomlRtos_triple,if_pos rfl,Option.some.injEq]
    constructor
    · rintro rfl
      exact kill_joins l.text
    · exact (kill_joins l.text).unique
  | false =>
    rw [hl] at h
    rw [tomlRtos_single h.2.2,if_neg Bool.false_ne_true,Option.some.injEq,eq_comm]

end literals

section witness

def paths : List Literal :=
  [⟨cstr "lines",true,
      cstr "a\\" ++ [newline,space] ++ cstr "b\\" ++ [carriageReturn,newline] ++ cstr "c"⟩,
    ⟨cstr "path",false,cstr "C:\\kvm"⟩]

theorem paths_quotable : ∀ l ∈ paths, Quotable l.multiline l.text := by
  rw [paths,List.forall_mem_cons,List.forall_mem_singleton]
  exact ⟨by decide +kernel,by decide +kernel⟩

end witness

end Toml
