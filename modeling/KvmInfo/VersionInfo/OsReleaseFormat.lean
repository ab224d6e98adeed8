import Mathlib.Data.List.TakeWhile
import KvmInfo.VersionInfo.OsRelease

namespace OsRelease
open Go

def escapeBy (P : UInt8 → Bool) (s : Str) : Str :=
  s.flatMap fun b => if P b then [backslash,b] else [b]

def special (b : UInt8) : Bool :=
  b == doubleQuote || b == dollar || b == backslash || b == backquote

def escape (value : Str) : Str := escapeBy special value

section escapes
variable {P : UInt8 → Bool} {b c : UInt8} {s t : Str}

theorem escapeBy_special (h : P b = true) (s : Str) :
    escapeBy P (b :: s) = backslash :: b :: escapeBy P s := by
  rw [escapeBy,List.flatMap_cons,if_pos h]
  rfl

theorem escapeBy_plain (h : P b = false) (s : Str) : escapeBy P (b :: s) = b :: escapeBy P s := by
  rw [escapeBy,List.flatMap_cons,if_neg (by rw [h]; exact Bool.false_ne_true)]
  rfl

theorem unescape_hit (c : UInt8) (t : Str) :
    unescape c (backslash :: c :: t) = c :: unescape c t := by
  rw [unescape,if_pos ⟨rfl,rfl⟩]

theorem unescape_miss (h : b ≠ backslash ∨ t.head? ≠ some c) :
    unescape c (b :: t) = b :: unescape c t := by
  cases t with
  | nil => rfl
  | cons d t =>
    rw [unescape,if_neg]
    rintro ⟨hb,rfl⟩
    exact h.elim (fun h => h hb) (fun h => h rfl)

theorem escapeBy_head (hc : P c = true) (hne : c ≠ backslash) (s : Str) :
    (escapeBy P s).head? ≠ some c := by
  cases s with
  | nil => simp [escapeBy]
  | cons b s =>
    cases hb : P b with
    | true =>
      rw [escapeBy_special hb]
      simpa using hne.symm
    | false =>
      rw [escapeBy_plain hb]
      intro h
      rw [Option.some.inj h,hc] at hb
      cases hb

theorem unescape_escapeBy (hc : P c = true) (s : Str) :
    unescape c (escapeBy P s) = escapeBy (fun b => P b && b != c) s := by
  induction s with
  | nil => rfl
  | cons b s ih =>
    cases hb : P b with
    | false =>
      have hkeep : b ≠ backslash ∨ (escapeBy P s).head? ≠ some c := by
        by_cases hback : c = backslash
        · left
          rintro rfl
          rw [hback,hb] at hc
          cases hc
        · exact Or.inr (escapeBy_head hc hback s)
      rw [escapeBy_plain hb,unescape_miss hkeep,ih,escapeBy_plain (by rw [hb]; rfl)]
    | true =>
      by_cases hbc : b = c
      · subst hbc
        rw [escapeBy_special hb,unescape_hit,ih,escapeBy_plain (by simp)]
      · have hkeep : b ≠ backslash ∨ (escapeBy P s).head? ≠ some c := by
          by_cases hback : b = backslash
          · exact Or.inr (escapeBy_head hc (hback ▸ Ne.symm hbc) s)
          · exact Or.inl hback
        have hslash : backslash ≠ backslash ∨ (b :: escapeBy P s).head? ≠ some c :=
          Or.inr (by simpa using hbc)
        rw [escapeBy_special hb,unescape_miss hslash,unescape_miss hkeep,ih,
          escapeBy_special (by simp [hb,hbc])]

theorem escapeBy_none (h : ∀ b, P b = false) (s : Str) : escapeBy P s = s := by
  induction s with
  | nil => rfl
  | cons b s ih => rw [escapeBy_plain (h b),ih]

theorem unescape_escape (value : Str) :
    unescape backquote (unescape backslash (unescape dollar (unescape doubleQuote (escape value)))) =
      value := by
  rw [escape,unescape_escapeBy (by decide),unescape_escapeBy (by decide),
    unescape_escapeBy (by decide),unescape_escapeBy (by decide)]
  refine escapeBy_none (fun b => ?_) value
  rw [Bool.eq_false_iff]
  simp only [special,ne_eq,Bool.and_eq_true,Bool.or_eq_true,beq_iff_eq,bne_iff_ne]
  tauto

theorem unescape_plain (h : backslash ∉ s) : unescape c s = s := by
  induction s with
  | nil => rfl
  | cons b s ih =>
    rw [List.mem_cons,not_or] at h
    rw [unescape_miss (Or.inl (Ne.symm h.1)),ih h.2]

end escapes

inductive Spelling where
  | quoted (value : Str)
  | bare (value : Str)

def Spelling.text : Spelling → Str
  | .quoted value => doubleQuote :: (escape value ++ [doubleQuote])
  | .bare value => value

def Spelling.value : Spelling → Str
  | .quoted value => value
  | .bare value => value

def Trimmed (s : Str) : Prop := s.head? ≠ some space ∧ s.getLast? ≠ some space

instance (s : Str) : Decidable (Trimmed s) :=
  inferInstanceAs (Decidable (s.head? ≠ some space ∧ s.getLast? ≠ some space))

def Spelling.Readable : Spelling → Prop
  | .quoted _ => True
  | .bare value => Trimmed value ∧ doubleQuote ∉ value ∧ backslash ∉ value

instance decidableSpelling : (v : Spelling) → Decidable v.Readable
  | .quoted _ => isTrue trivial
  | .bare value =>
      inferInstanceAs (Decidable (Trimmed value ∧ doubleQuote ∉ value ∧ backslash ∉ value))

-- A line of the file: an assignment with blanks around its parts, or a line that assigns nothing.
inductive Line where
  | assign (before after left right : ℕ) (key : Str) (value : Spelling)
  | other (text : Str)

def blanks (n : ℕ) : Str := List.replicate n space

def Line.text : Line → Str
  | .assign before after left right key value =>
      blanks before ++ key ++ blanks after ++ equals ::
        (blanks left ++ value.text ++ blanks right)
  | .other text => text

def Line.Readable : Line → Prop
  | .assign _ _ _ _ key value =>
      Trimmed key ∧ equals ∉ key ∧ key.head? ≠ some hash ∧ value.Readable
  | .other text => text = [] ∨ text.head? = some hash ∨ equals ∉ text

instance decidableLine : (l : Line) → Decidable l.Readable
  | .assign _ _ _ _ key value =>
      inferInstanceAs (Decidable
        (Trimmed key ∧ equals ∉ key ∧ key.head? ≠ some hash ∧ value.Readable))
  | .other text => inferInstanceAs (Decidable (text = [] ∨ text.head? = some hash ∨ equals ∉ text))

def Line.assigned : Line → Option (Str × Str)
  | .assign _ _ _ _ key value => some (key,value.value)
  | .other _ => none

section lines

theorem dropWhile_blanks {s : Str} (h : s.head? ≠ some space) (n : ℕ) :
    (blanks n ++ s).dropWhile (· = space) = s := by
  have hblanks : ∀ b ∈ blanks n, decide (b = space) = true :=
    fun b hb => decide_eq_true (List.eq_of_mem_replicate hb)
  rw [List.dropWhile_append_of_pos hblanks]
  exact List.dropWhile_beq_eq_self_of_head?_ne h

theorem trimSpace_blanks {s : Str} (h : Trimmed s) (m n : ℕ) :
    trimSpace (blanks m ++ s ++ blanks n) = s := by
  cases s with
  | nil =>
    have hall : ∀ b ∈ blanks m ++ [] ++ blanks n, decide (b = space) = true := by
      simp [blanks]
    rw [trimSpace,List.dropWhile_eq_nil_iff.mpr hall]
    rfl
  | cons b s =>
    have hfront : (blanks m ++ (b :: s) ++ blanks n).dropWhile (· = space) = b :: s ++ blanks n := by
      rw [List.append_assoc]
      exact dropWhile_blanks (s := b :: s ++ blanks n) h.1 m
    have hback : (b :: s ++ blanks n).reverse = blanks n ++ (b :: s).reverse := by
      rw [List.reverse_append,blanks,List.reverse_replicate]
    have hlast : (b :: s).reverse.head? ≠ some space := by
      rw [List.head?_reverse]
      exact h.2
    rw [trimSpace,hfront,hback,dropWhile_blanks hlast,List.reverse_reverse]

theorem quoted_trimmed (value : Str) : Trimmed (Spelling.quoted value).text := by
  refine ⟨by simp [Spelling.text,doubleQuote,space],?_⟩
  rw [Spelling.text,← List.cons_append,List.getLast?_concat]
  simp [doubleQuote,space]

theorem spelling_trimmed {v : Spelling} (h : v.Readable) : Trimmed v.text := by
  cases v with
  | quoted value => exact quoted_trimmed value
  | bare value => exact h.1

theorem unquote_quoted (value : Str) : unquote (Spelling.quoted value).text = .ok (escape value) := by
  have hmem : doubleQuote ∈ (Spelling.quoted value).text := List.mem_cons_self
  have hlen : (Spelling.quoted value).text.length = (escape value).length + 2 := by
    simp [Spelling.text]
  have hfirst : slice (Spelling.quoted value).text 0 1 = .ok [doubleQuote] :=
    sliceTo_ok (Spelling.quoted value).text 1 (by omega)
  have hlast : sliceFrom (Spelling.quoted value).text ((Spelling.quoted value).text.length - 1) =
      .ok [doubleQuote] := by
    have hcast : (((Spelling.quoted value).text.length : ℤ) - 1) =
        (((escape value).length + 1 : ℕ) : ℤ) := by rw [hlen]; omega
    rw [hcast,sliceFrom_ok _ _ (by omega)]
    simp [Spelling.text]
  rw [unquote,if_pos hmem,hfirst,hlast]
  simp only [bind,Except.bind]
  rw [if_pos ⟨trivial,Or.inl (List.mem_singleton_self _)⟩]
  simp [Spelling.text,trimPrefix,trimSuffix,doubleQuote,singleQuote,pure,Except.pure]

theorem spelling_read {v : Spelling} (h : v.Readable) : ∃ value, unquote v.text = .ok value ∧
    unescape backquote (unescape backslash (unescape dollar (unescape doubleQuote value))) =
      v.value := by
  cases v with
  | quoted value => exact ⟨escape value,unquote_quoted value,unescape_escape value⟩
  | bare value =>
    obtain ⟨-,hquote,hback⟩ := h
    refine ⟨value,if_neg hquote,?_⟩
    rw [unescape_plain hback,unescape_plain hback,unescape_plain hback,unescape_plain hback]
    rfl

theorem splitN2_append {x y : Str} {sep : UInt8} (h : sep ∉ x) :
    splitN2 (x ++ sep :: y) sep = [x,y] := by
  have hx : ∀ b ∈ x, decide (b ≠ sep) = true := by
    intro b hb
    rw [decide_eq_true_eq]
    rintro rfl
    exact h hb
  rw [splitN2,if_pos (by simp),List.takeWhile_append_of_pos hx,List.dropWhile_append_of_pos hx]
  simp

theorem parseLine_split {x y value : Str} (hhead : (x ++ equals :: y).head? ≠ some hash)
    (hx : equals ∉ x) (hvalue : unquote (trimSpace y) = .ok value) :
    parseLine (x ++ equals :: y) = .ok (.ok (trimSpace x,
      unescape backquote (unescape backslash (unescape dollar (unescape doubleQuote value))))) := by
  obtain ⟨b,t,hline⟩ : ∃ b t, x ++ equals :: y = b :: t := by
    cases x with
    | nil => exact ⟨_,_,rfl⟩
    | cons b x => exact ⟨_,_,rfl⟩
  have hb : ¬b = hash := by
    rintro rfl
    rw [hline] at hhead
    exact hhead rfl
  have hsplit := splitN2_append (y := y) hx
  rw [hline] at hsplit ⊢
  have hindex : index (b :: t) 0 = .ok b := index_ok (b :: t) 0 (Nat.succ_pos _)
  have hkey : index [x,y] 0 = .ok x := index_ok [x,y] 0 Nat.two_pos
  have hval : index [x,y] 1 = .ok y := index_ok [x,y] 1 Nat.one_lt_two
  rw [parseLine,if_neg (by simp)]
  simp only [hindex,bind,Except.bind,if_neg hb,hsplit,hkey,hval,hvalue]
  rfl

theorem parseLine_other {text : Str} (h : (Line.other text).Readable) :
    ∃ err, parseLine text = .ok (.error err) := by
  rw [parseLine]
  split_ifs with hlen
  · exact ⟨_,rfl⟩
  · obtain ⟨b,t,rfl⟩ := List.exists_cons_of_ne_nil (List.ne_nil_of_length_pos (Nat.pos_of_ne_zero hlen))
    have hindex : index (b :: t) 0 = .ok b := index_ok (b :: t) 0 (Nat.succ_pos _)
    simp only [hindex,bind,Except.bind]
    split_ifs with hb hsplit
    · exact ⟨_,rfl⟩
    · exact ⟨_,rfl⟩
    · have hequals : equals ∉ b :: t := by
        rcases h with h | h | h
        · cases h
        · exact absurd (Option.some.inj h) hb
        · exact h
      rw [splitN2,if_neg hequals] at hsplit
      exact absurd (show [b :: t].length ≠ 2 by simp) hsplit

theorem assign_head {before after : ℕ} {key y : Str} (h : key.head? ≠ some hash) :
    (blanks before ++ key ++ blanks after ++ equals :: y).head? ≠ some hash := by
  cases before with
  | succ n => simp [blanks,List.replicate_succ,space,hash]
  | zero =>
    cases key with
    | cons b key => simpa [blanks] using h
    | nil =>
      cases after with
      | zero => simp [blanks,equals,hash]
      | succ n => simp [blanks,List.replicate_succ,space,hash]

theorem parseLine_assign {before after left right : ℕ} {key : Str} {v : Spelling}
    (h : (Line.assign before after left right key v).Readable) :
    parseLine (Line.assign before after left right key v).text = .ok (.ok (key,v.value)) := by
  obtain ⟨hkey,hequals,hhash,hv⟩ := h
  obtain ⟨value,hunquote,hvalue⟩ := spelling_read hv
  have hnot : equals ∉ blanks before ++ key ++ blanks after := by
    simpa [blanks,equals,space] using hequals
  rw [← trimSpace_blanks (spelling_trimmed hv) left right] at hunquote
  rw [Line.text,parseLine_split (assign_head hhash) hnot hunquote,hvalue,trimSpace_blanks hkey]

theorem collect_lines {ls : List Line} (h : ∀ l ∈ ls, l.Readable) (osrelease : Table) :
    collect (ls.map Line.text) osrelease =
      .ok ((ls.filterMap Line.assigned).reverse ++ osrelease) := by
  induction ls generalizing osrelease with
  | nil => rfl
  | cons l ls ih =>
    obtain ⟨hl,hls⟩ := List.forall_mem_cons.mp h
    rw [List.map_cons,collect]
    cases l with
    | assign before after left right key v =>
      rw [parseLine_assign hl]
      simp only [bind,Except.bind]
      rw [ih hls,Table.set]
      simp [Line.assigned]
    | other text =>
      obtain ⟨err,herr⟩ := parseLine_other hl
      rw [Line.text,herr]
      exact ih hls osrelease

end lines

def Line.Fits (l : Line) : Prop :=
  newline ∉ l.text ∧ l.text.getLast? ≠ some carriageReturn ∧ l.text.length < maxScanTokenSize

instance (l : Line) : Decidable l.Fits :=
  inferInstanceAs (Decidable (newline ∉ l.text ∧ l.text.getLast? ≠ some carriageReturn ∧
    l.text.length < maxScanTokenSize))

def fileText (ls : List Line) : Str := ls.flatMap fun l => l.text ++ [newline]

section file

theorem split_terminated {xs : List Str} (sep : UInt8) (h : ∀ x ∈ xs, sep ∉ x) :
    split (xs.flatMap fun x => x ++ [sep]) sep = xs ++ [[]] := by
  have hjoin : xs.flatMap (fun x => x ++ [sep]) = join (xs ++ [[]]) sep := by
    clear h
    induction xs with
    | nil => rfl
    | cons x xs ih =>
      rw [List.flatMap_cons,ih,join,join,List.cons_append,List.intercalate_cons_of_ne_nil (by simp)]
  rw [hjoin,split,join]
  refine List.splitOn_intercalate sep (fun x hx => ?_) (by simp)
  rcases List.mem_append.mp hx with hx | hx
  · exact h x hx
  · rw [List.mem_singleton.mp hx]
    exact List.not_mem_nil

theorem scanLines_file {ls : List Line} (h : ∀ l ∈ ls, l.Fits) :
    scanLines (fileText ls) = .ok (ls.map Line.text) := by
  have hraw : split (fileText ls) newline = ls.map Line.text ++ [[]] := by
    have hlines : ∀ x ∈ ls.map Line.text, newline ∉ x := by
      intro x hx
      obtain ⟨l,hl,rfl⟩ := List.mem_map.mp hx
      exact (h l hl).1
    have hsplit := split_terminated newline hlines
    rwa [List.flatMap_map] at hsplit
  have hshort : (ls.map Line.text).any (fun line => decide (maxScanTokenSize ≤ line.length)) = false := by
    rw [List.any_eq_false]
    intro x hx
    obtain ⟨l,hl,rfl⟩ := List.mem_map.mp hx
    rw [decide_eq_true_eq,Nat.not_le]
    exact (h l hl).2.2
  have hkeep : (ls.map Line.text).map dropCR = ls.map Line.text := by
    rw [List.map_map]
    refine List.map_congr_left fun l hl => ?_
    exact if_neg (h l hl).2.1
  rw [scanLines,hraw]
  simp only [List.getLast?_concat,if_true,List.dropLast_concat,hshort,hkeep]
  rfl

theorem readFile_lines {files : Str → Except Str Str} {filename : Str} {ls : List Line}
    (hread : ∀ l ∈ ls, l.Readable) (hfits : ∀ l ∈ ls, l.Fits)
    (hfile : files filename = .ok (fileText ls)) :
    readFile files filename = .ok (.ok (ls.filterMap Line.assigned).reverse) := by
  have hcollect := collect_lines hread []
  rw [List.append_nil] at hcollect
  rw [readFile,hfile]
  simp only [scanLines_file hfits,hcollect]
  rfl

def lastAssigned (key : Str) : List Line → Option Str
  | [] => none
  | l :: ls => (lastAssigned key ls).or (l.assigned.bind fun entry =>
      if entry.1 = key then some entry.2 else none)

theorem lookup_assigned (key : Str) (ls : List Line) :
    (ls.filterMap Line.assigned).reverse.lookup key = lastAssigned key ls := by
  induction ls with
  | nil => rfl
  | cons l ls ih =>
    rw [lastAssigned,← ih]
    cases h : l.assigned with
    | none => rw [List.filterMap_cons_none h,Option.bind_none,Option.or_none]
    | some entry =>
      obtain ⟨k,value⟩ := entry
      rw [List.filterMap_cons_some h,List.reverse_cons,List.lookup_append,Option.bind_some]
      congr 1
      by_cases hk : k = key
      · rw [if_pos hk,hk,List.lookup_cons_self]
      · have hne : (key == k) = false := by rw [beq_eq_false_iff_ne]; exact Ne.symm hk
        rw [if_neg hk,List.lookup_cons,hne]
        rfl

theorem readFile_written {files : Str → Except Str Str} {filename : Str} {ls : List Line}
    (hread : ∀ l ∈ ls, l.Readable) (hfits : ∀ l ∈ ls, l.Fits)
    (hfile : files filename = .ok (fileText ls)) :
    ∃ osrelease, readFile files filename = .ok (.ok osrelease) ∧
      ∀ key, osrelease.get key = (lastAssigned key ls).getD [] := by
  refine ⟨_,readFile_lines hread hfits hfile,fun key => ?_⟩
  rw [Table.get,lookup_assigned]

end file

section witness

def sampleLines : List Line :=
  [.assign 0 0 0 0 (str "ID") (.bare (str "linux")),.other (str "# overridden below"),
    .assign 0 1 1 0 (str "ID") (.quoted (str "a\"b$"))]

theorem readFile_written_sample :
    ∃ osrelease, readFile (fun _ => .ok (fileText sampleLines)) etcOsRelease =
        .ok (.ok osrelease) ∧
      ∀ key, osrelease.get key = (lastAssigned key sampleLines).getD [] :=
  readFile_written (by decide) (by decide) rfl

end witness

end OsRelease
