import KvmInfo.Toml.Ucs
import KvmInfo.Toml.Lookup
import KvmInfo.Toml.Printed

namespace Toml
open Caps

-- Every match goes, with the spacing behind its backslash.
def killRound (needle : Bytes) : ℕ → Bytes → Bytes
  | 0, str => str
  | fuel + 1, str =>
      match strstr needle str with
      | none => str
      | some p =>
          str.take (str.length - p.length) ++ killRound needle fuel (p.tail.dropWhile isSpacing)

def killLineEndingBackslash (str : Bytes) : Bytes :=
  let str := killRound [backslash,newline] str.length str
  killRound [backslash,carriageReturn,newline] str.length str

def between (n : ℕ) (quote : UInt8) (src : Bytes) : Option Bytes :=
  if 2 * n ≤ src.length ∧ src.drop (src.length - n) = List.replicate n quote then
    some ((src.drop n).take (src.length - 2 * n))
  else none

def skipNewline (s : Bytes) : Bytes :=
  if s.head? = some newline then s.tail
  else if s.head? = some carriageReturn ∧ s.tail.head? = some newline then s.drop 2
  else s

def tomlRtos (src : Bytes) : Option Bytes :=
  if src.head? = some squote then
    if startsWith src [squote,squote,squote] then do
      let s ← between 3 squote src
      return killLineEndingBackslash (skipNewline s)
    else between 1 squote src
  else if src.head? = some dquote then do
    let s ← if startsWith src [dquote,dquote,dquote] then (between 3 dquote src).map skipNewline
      else between 1 dquote src
    match normalizeString s true with
    | .ok ret => return cString ret
    | .error _ => none
  else none

def hexByte (v : ℕ) : UInt8 := UInt8.ofNat (if v < 10 then 0x30 + v else 0x41 + (v - 10))

def hexText : ℕ → ℕ → Bytes
  | 0, _ => []
  | n + 1, code => hexByte (code / 16 ^ n % 16) :: hexText n code

inductive Piece where
  | raw (code : ℕ)
  | short (c : UInt8)
  | four (code : ℕ)
  | eight (code : ℕ)
  | fold (blanks : Bytes)

def encode (codes : List ℕ) : Bytes := codes.flatMap fun code => (ucsToUtf8 code).getD []

def Piece.codes : Piece → List ℕ
  | .raw code => [code]
  | .short c => ((escapeOf c).map UInt8.toNat).toList
  | .four code => [code]
  | .eight code => [code]
  | .fold _ => []

def Piece.text : Piece → Bytes
  | .raw code => encode [code]
  | .short c => [backslash,c]
  | .four code => backslash :: lowerU :: hexText 4 code
  | .eight code => backslash :: upperU :: hexText 8 code
  | .fold blanks => backslash :: newline :: blanks

def textOf (ps : List Piece) : Bytes := ps.flatMap Piece.text

def codesOf (ps : List Piece) : List ℕ := ps.flatMap Piece.codes

def Encodable (code : ℕ) : Prop := (ucsToUtf8 code).isSome = true ∧ code ≠ 0

instance (code : ℕ) : Decidable (Encodable code) :=
  inferInstanceAs (Decidable ((ucsToUtf8 code).isSome = true ∧ code ≠ 0))

def Piece.Readable (multiline : Bool) : Piece → Prop
  | .raw code => Encodable code ∧ code ≠ dquote.toNat ∧ code ≠ backslash.toNat ∧
      (multiline = false → code ≠ newline.toNat)
  | .short c => (escapeOf c).isSome = true
  | .four code => Encodable code ∧ code < 16 ^ 4
  | .eight code => Encodable code
  | .fold blanks => multiline = true ∧ ∀ c ∈ blanks, isSpacing c = true

-- Spacing behind a line-ending backslash is part of it.
def Placed (multiline : Bool) : List Piece → Prop
  | [] => True
  | p :: ps => p.Readable multiline ∧
      (∀ blanks, p = .fold blanks → ∀ c ∈ (textOf ps).head?, isSpacing c = false) ∧
      Placed multiline ps

def delimiter (multiline : Bool) : Bytes :=
  if multiline then [dquote,dquote,dquote] else [dquote]

def quoted (multiline : Bool) (ps : List Piece) : Bytes :=
  delimiter multiline ++ (if multiline then [newline] else []) ++ textOf ps ++ delimiter multiline

inductive Decodes : Bytes → List ℕ → Prop where
  | nil : Decodes [] []
  | cons {bs : Bytes} {code k : ℕ} {codes : List ℕ} (h : utf8ToUcs bs = some (code,k))
      (hs : Decodes (bs.drop k) codes) : Decodes bs (code :: codes)

section codes
variable {code : ℕ} {codes : List ℕ}

theorem encode_cons (code : ℕ) (codes : List ℕ) :
    encode (code :: codes) = encode [code] ++ encode codes := by
  rw [encode,encode,encode,List.flatMap_cons,List.flatMap_singleton]

theorem encode_append (codes codes' : List ℕ) :
    encode (codes ++ codes') = encode codes ++ encode codes' :=
  List.flatMap_append

theorem encodable_some (h : Encodable code) : ucsToUtf8 code = some (encode [code]) := by
  obtain ⟨out,hout⟩ := Option.isSome_iff_exists.mp h.1
  rw [encode,List.flatMap_singleton,hout]
  rfl

theorem encode_decodes (h : ∀ code ∈ codes, Encodable code) : Decodes (encode codes) codes := by
  induction codes with
  | nil => exact .nil
  | cons code codes ih =>
    obtain ⟨hcode,hcodes⟩ := List.forall_mem_cons.mp h
    have hread := (ucs_round_trip code).1 _ (encode codes) (encodable_some hcode)
    rw [← encode_cons] at hread
    have hrest : (encode (code :: codes)).drop (encode [code]).length = encode codes := by
      rw [encode_cons code codes,List.drop_left]
    refine .cons hread ?_
    rw [hrest]
    exact ih hcodes

end codes

section hex

theorem hexByte_value {v : ℕ} (h : v < 16) : hexValue (hexByte v) = some v ∧ hexByte v ∈ hexBytes := by
  interval_cases v <;> decide

theorem readHex_hexText (nhex n : ℕ) (ch : UInt8) (ucs code : ℕ) (sp : Bytes) :
    readHex nhex n ch ucs (hexText n code ++ sp) = .ok (ucs * 16 ^ n + code % 16 ^ n,sp) := by
  induction n generalizing ch ucs with
  | zero => simp [hexText,readHex,Nat.mod_one]
  | succ n ih =>
    have hdigit := (hexByte_value (v := code / 16 ^ n % 16) (Nat.mod_lt _ (by decide))).1
    have hvalue : (ucs * 16 + code / 16 ^ n % 16) * 16 ^ n + code % 16 ^ n =
        ucs * 16 ^ (n + 1) + code % 16 ^ (n + 1) := by
      rw [pow_succ,Nat.mod_mul]
      ring
    rw [hexText,List.cons_append,readHex,hdigit]
    dsimp only
    rw [ih,hvalue]

theorem readUcs_hexText {n code : ℕ} {ch : UInt8} (h : Encodable code) (hlt : code < 16 ^ n)
    (sp : Bytes) : readUcs n ch (hexText n code ++ sp) = .ok (encode [code],sp) := by
  rw [readUcs,readHex_hexText,Nat.zero_mul,Nat.zero_add,Nat.mod_eq_of_lt hlt]
  simp only [bind,Except.bind,encodable_some h]
  rfl

end hex

section scanning
variable {β : Type} {multiline : Bool} {walk : ℕ → Bool → Bytes → β}

structure Walks (multiline : Bool) (walk : ℕ → Bool → Bytes → β) : Prop where
  next : ∀ {hexreq escape c hexreq' escape'}, escapeStep multiline hexreq escape c =
    .next hexreq' escape' → ∀ p, walk hexreq escape (c :: p) = walk hexreq' escape' p
  plain : ∀ {c}, c ≠ dquote → c ≠ backslash → (multiline = false → c ≠ newline) →
    ∀ p, walk 0 false (c :: p) = walk 0 false p

theorem escapeStep_plain {c : UInt8} (h : c ≠ backslash) : escapeStep multiline 0 false c = .plain := by
  rw [escapeStep,if_neg Bool.false_ne_true,if_neg (by simp),if_neg h]

theorem quoteLoop_walks : Walks false quoteLoop where
  next h p := by rw [quoteLoop,h]
  plain hd hb hn p := by
    rw [quoteLoop,escapeStep_plain hb]
    simp only [hn rfl,hd,or_self,if_false]

theorem tripleLoop_walks : Walks true fun hexreq escape p => tripleLoop hexreq escape 0 p where
  next h p := by rw [tripleLoop,if_pos (by decide),h]
  plain hd hb hn p := by
    rw [tripleLoop,if_pos (by decide),escapeStep_plain hb]
    simp only [hd,if_false]

theorem Walks.plains (h : Walks multiline walk) {w : Bytes}
    (hw : ∀ c ∈ w, c ≠ dquote ∧ c ≠ backslash ∧ (multiline = false → c ≠ newline)) (p : Bytes) :
    walk 0 false (w ++ p) = walk 0 false p := by
  induction w with
  | nil => rfl
  | cons c w ih =>
    obtain ⟨⟨hd,hb,hn⟩,hrest⟩ := List.forall_mem_cons.mp hw
    rw [List.cons_append,h.plain hd hb hn,ih hrest]

theorem Walks.hex (h : Walks multiline walk) (n code : ℕ) (p : Bytes) :
    walk n false (hexText n code ++ p) = walk 0 false p := by
  induction n with
  | zero => rfl
  | succ n ih =>
    have hmem := (hexByte_value (v := code / 16 ^ n % 16) (Nat.mod_lt _ (by decide))).2
    have hstep : escapeStep multiline (n + 1) false (hexByte (code / 16 ^ n % 16)) = .next n false := by
      rw [escapeStep,if_neg Bool.false_ne_true,if_pos (Nat.succ_ne_zero n),if_pos hmem]
      rfl
    rw [hexText,List.cons_append,h.next hstep,ih]

theorem Walks.backslash (h : Walks multiline walk) {c : UInt8} {hexreq : ℕ}
    (hc : escapeStep multiline 0 true c = .next hexreq false) (p : Bytes) :
    walk 0 false (Toml.backslash :: c :: p) = walk hexreq false p := by
  have hstep : escapeStep multiline 0 false Toml.backslash = .next 0 true := by
    rw [escapeStep,if_neg Bool.false_ne_true,if_neg (by simp),if_pos rfl]
  rw [h.next hstep,h.next hc]

theorem raw_bytes {code : ℕ} (h : (Piece.raw code).Readable multiline) :
    ∀ c ∈ encode [code], c ≠ dquote ∧ c ≠ backslash ∧ (multiline = false → c ≠ newline) := by
  obtain ⟨hcode,hd,hb,hn⟩ := h
  have hne : ∀ {c b : UInt8}, c.toNat ≠ b.toNat → c ≠ b := fun h hcb => h (congrArg UInt8.toNat hcb)
  intro c hc
  rcases ucsToUtf8_bytes (encodable_some hcode) with ⟨hlt,hbytes⟩ | hhigh
  · rw [hbytes,List.mem_singleton] at hc
    have hval : c.toNat = code := by
      rw [hc,UInt8.toNat_ofNat']
      omega
    rw [← hval] at hd hb hn
    exact ⟨hne hd,hne hb,fun hm => hne (hn hm)⟩
  · have hge := hhigh c hc
    refine ⟨hne ?_,hne ?_,fun _ => hne ?_⟩
    · have : dquote.toNat = 0x22 := rfl
      omega
    · have : backslash.toNat = 0x5C := rfl
      omega
    · have : newline.toNat = 0x0A := rfl
      omega

theorem escapeOf_some {c out : UInt8} (h : escapeOf c = some out) :
    c ∈ escapeBytes ∧ (c ≠ newline ∧ c ≠ carriageReturn ∧ c ≠ lowerU ∧ c ≠ upperU) ∧
      out ≠ 0 ∧ out.toNat < 0x80 := by
  obtain ⟨l,l',hl,-⟩ := List.lookup_eq_some_iff.mp h
  have hmem : (c,out) ∈ l ++ (c,out) :: l' := by simp
  rw [← hl] at hmem
  fin_cases hmem <;> decide

theorem Walks.piece (h : Walks multiline walk) {p : Piece} (hp : p.Readable multiline)
    (rest : Bytes) : walk 0 false (p.text ++ rest) = walk 0 false rest := by
  cases p with
  | raw code => exact h.plains (raw_bytes hp) rest
  | short c =>
    obtain ⟨out,hout⟩ := Option.isSome_iff_exists.mp hp
    exact h.backslash (by rw [escapeStep,if_pos rfl,if_pos (escapeOf_some hout).1]) rest
  | four code => exact (h.backslash rfl _).trans (h.hex 4 code rest)
  | eight code => exact (h.backslash rfl _).trans (h.hex 8 code rest)
  | fold blanks =>
    obtain ⟨rfl,hblanks⟩ := hp
    apply (h.backslash rfl _).trans
    apply h.plains
    intro c hc
    have hspace := hblanks c hc
    refine ⟨?_,?_,fun h => absurd h (by decide)⟩
    · rintro rfl
      exact absurd hspace (by decide)
    · rintro rfl
      exact absurd hspace (by decide)

theorem Walks.pieces (h : Walks multiline walk) {ps : List Piece} (hps : Placed multiline ps)
    (rest : Bytes) : walk 0 false (textOf ps ++ rest) = walk 0 false rest := by
  induction ps with
  | nil => rfl
  | cons p ps ih =>
    obtain ⟨hp,-,hrest⟩ := hps
    rw [textOf,List.flatMap_cons,List.append_assoc,h.piece hp]
    exact ih hrest

end scanning

section normalizing

theorem normalizeLoop_plains {w rest : Bytes} {fuel : ℕ} (hw : backslash ∉ w)
    (hfuel : (w ++ rest).length ≤ fuel) :
    ∃ fuel', rest.length ≤ fuel' ∧
      normalizeLoop true fuel (w ++ rest) = (normalizeLoop true fuel' rest).map (w ++ ·) := by
  induction w generalizing fuel with
  | nil =>
    refine ⟨fuel,hfuel,?_⟩
    rw [List.nil_append]
    cases normalizeLoop true fuel rest <;> rfl
  | cons c w ih =>
    rw [List.mem_cons,not_or] at hw
    obtain ⟨fuel,rfl⟩ : ∃ k, fuel = k + 1 := ⟨fuel - 1,by simp at hfuel; omega⟩
    obtain ⟨fuel',hle,heq⟩ := ih hw.2 (by simpa using hfuel)
    refine ⟨fuel',hle,?_⟩
    rw [List.cons_append,normalizeLoop,if_pos (Ne.symm hw.1),heq]
    cases normalizeLoop true fuel' rest <;> rfl

theorem normalizeLoop_escaped {sp rest out : Bytes} {fuel : ℕ} (h : readEscape true sp = .ok (out,rest))
    (hlen : rest.length ≤ sp.length) (hfuel : (backslash :: sp).length ≤ fuel) :
    ∃ fuel', rest.length ≤ fuel' ∧ normalizeLoop true fuel (backslash :: sp) =
      (normalizeLoop true fuel' rest).map (out ++ ·) := by
  obtain ⟨fuel,rfl⟩ : ∃ k, fuel = k + 1 := ⟨fuel - 1,by simp at hfuel; omega⟩
  refine ⟨fuel,by simp at hfuel; omega,?_⟩
  rw [normalizeLoop,if_neg (by simp),h]
  cases hrest : normalizeLoop true fuel rest with
  | error e => simp only [bind,Except.bind,hrest,Except.map]
  | ok ret => simp only [bind,Except.bind,hrest,Except.map]; rfl

theorem readEscape_short {c out : UInt8} (h : escapeOf c = some out) (sp : Bytes) :
    readEscape true (c :: sp) = .ok ([out],sp) := by
  obtain ⟨-,⟨hn,hr,hl,hu⟩,-⟩ := escapeOf_some h
  rw [readEscape,if_neg (by simp [hn,hr]),if_neg hl,if_neg hu,h]

theorem readEscape_fold {blanks rest : Bytes} (hblanks : ∀ c ∈ blanks, isSpacing c = true)
    (hrest : ∀ c ∈ rest.head?, isSpacing c = false) :
    readEscape true (newline :: (blanks ++ rest)) = .ok ([],rest) := by
  have hdrop : (newline :: (blanks ++ rest)).dropWhile isSpacing = rest := by
    rw [List.dropWhile_cons_of_pos (by decide),List.dropWhile_append_of_pos hblanks]
    cases rest with
    | nil => rfl
    | cons c rest => exact List.dropWhile_cons_of_neg (by rw [hrest c rfl]; decide)
  rw [readEscape,if_pos (by simp),hdrop]

theorem encodable_lt {code : ℕ} (h : Encodable code) : code < 2 ^ 31 := by
  by_contra hle
  have hnone := ucsToUtf8_none (Or.inr (not_lt.mp hle))
  rw [encodable_some h] at hnone
  cases hnone

theorem encode_ascii {c : UInt8} (h : c.toNat < 0x80) : ucsToUtf8 c.toNat = some [c] := by
  have hshort : Shortest 0 c.toNat := ⟨h,fun i hi => absurd hi (Nat.not_lt_zero i)⟩
  have hcode : ¬Refused c.toNat := by
    rw [Refused]
    omega
  rw [ucsToUtf8_shortest (by decide) hcode hshort,form_zero,UInt8.ofNat_toNat]

theorem short_encodable {c out : UInt8} (h : escapeOf c = some out) :
    Encodable out.toNat ∧ encode [out.toNat] = [out] := by
  obtain ⟨-,-,hne,hlt⟩ := escapeOf_some h
  have henc := encode_ascii hlt
  have hcode : Encodable out.toNat := by
    refine ⟨by rw [henc]; rfl,?_⟩
    intro hzero
    exact hne (UInt8.toNat_inj.mp hzero)
  exact ⟨hcode,Option.some.inj ((encodable_some hcode).symm.trans henc)⟩

variable {multiline : Bool}

theorem piece_encodable {p : Piece} (hp : p.Readable multiline) : ∀ code ∈ p.codes, Encodable code := by
  cases p with
  | raw code => exact List.forall_mem_singleton.mpr hp.1
  | short c =>
    obtain ⟨out,hout⟩ := Option.isSome_iff_exists.mp hp
    rw [Piece.codes,hout]
    exact List.forall_mem_singleton.mpr (short_encodable hout).1
  | four code => exact List.forall_mem_singleton.mpr hp.1
  | eight code => exact List.forall_mem_singleton.mpr hp
  | fold blanks =>
    intro code hcode
    cases hcode

theorem normalizeLoop_piece {p : Piece} {rest : Bytes} {fuel : ℕ} (hp : p.Readable multiline)
    (hfold : ∀ blanks, p = .fold blanks → ∀ c ∈ rest.head?, isSpacing c = false)
    (hfuel : (p.text ++ rest).length ≤ fuel) :
    ∃ fuel', rest.length ≤ fuel' ∧ normalizeLoop true fuel (p.text ++ rest) =
      (normalizeLoop true fuel' rest).map (encode p.codes ++ ·) := by
  cases p with
  | raw code =>
    have hplain : backslash ∉ encode [code] := fun hmem => (raw_bytes hp _ hmem).2.1 rfl
    exact normalizeLoop_plains hplain hfuel
  | short c =>
    obtain ⟨out,hout⟩ := Option.isSome_iff_exists.mp hp
    have hcodes : encode (Piece.short c).codes = [out] := by
      rw [Piece.codes,hout]
      exact (short_encodable hout).2
    rw [hcodes]
    exact normalizeLoop_escaped (readEscape_short hout rest) (by simp) hfuel
  | four code =>
    have hread : readEscape true (lowerU :: (hexText 4 code ++ rest)) = .ok (encode [code],rest) :=
      readUcs_hexText hp.1 hp.2 rest
    exact normalizeLoop_escaped hread (by simp; omega) hfuel
  | eight code =>
    have hlt : code < 16 ^ 8 := (encodable_lt hp).trans (by decide)
    have hread : readEscape true (upperU :: (hexText 8 code ++ rest)) = .ok (encode [code],rest) :=
      readUcs_hexText hp hlt rest
    exact normalizeLoop_escaped hread (by simp; omega) hfuel
  | fold blanks =>
    exact normalizeLoop_escaped (readEscape_fold hp.2 (hfold blanks rfl)) (by simp; omega) hfuel

theorem normalizeLoop_pieces {ps : List Piece} {fuel : ℕ} (hps : Placed multiline ps)
    (hfuel : (textOf ps).length ≤ fuel) :
    normalizeLoop true fuel (textOf ps) = .ok (encode (codesOf ps)) := by
  induction ps generalizing fuel with
  | nil => cases fuel <;> rfl
  | cons p ps ih =>
    obtain ⟨hp,hfold,hrest⟩ := hps
    obtain ⟨fuel',hle,heq⟩ := normalizeLoop_piece hp hfold hfuel
    have htext : textOf (p :: ps) = p.text ++ textOf ps := List.flatMap_cons
    have hcodes : codesOf (p :: ps) = p.codes ++ codesOf ps := List.flatMap_cons
    rw [htext,heq,ih hrest hle,hcodes,encode_append]
    rfl

theorem codesOf_encodable {ps : List Piece} (hps : Placed multiline ps) :
    ∀ code ∈ codesOf ps, Encodable code := by
  induction ps with
  | nil => simp [codesOf]
  | cons p ps ih =>
    obtain ⟨hp,-,hrest⟩ := hps
    rw [codesOf,List.flatMap_cons]
    exact List.forall_mem_append.mpr ⟨piece_encodable hp,ih hrest⟩

theorem encode_plain {codes : List ℕ} (h : ∀ code ∈ codes, Encodable code) : 0 ∉ encode codes := by
  induction codes with
  | nil => simp [encode]
  | cons code codes ih =>
    obtain ⟨hcode,hcodes⟩ := List.forall_mem_cons.mp h
    rw [encode_cons,List.mem_append,not_or]
    refine ⟨?_,ih hcodes⟩
    intro hzero
    rcases ucsToUtf8_bytes (encodable_some hcode) with ⟨hlt,hbytes⟩ | hhigh
    · rw [hbytes,List.mem_singleton] at hzero
      have hval := congrArg UInt8.toNat hzero
      rw [UInt8.toNat_ofNat'] at hval
      have : (0 : UInt8).toNat = 0 := rfl
      exact hcode.2 (by omega)
    · exact absurd (hhigh 0 hzero) (by decide)

end normalizing

section quoting
variable {multiline : Bool} {ps : List Piece}

theorem between_quotes (n : ℕ) (quote : UInt8) (w : Bytes) :
    between n quote (List.replicate n quote ++ w ++ List.replicate n quote) = some w := by
  have hlen : (List.replicate n quote ++ w ++ List.replicate n quote).length = n + w.length + n := by
    rw [List.length_append,List.length_append,List.length_replicate]
  have hend : (List.replicate n quote ++ w ++ List.replicate n quote).drop (n + w.length) =
      List.replicate n quote :=
    List.drop_left' (by simp)
  have hstart : (List.replicate n quote ++ w ++ List.replicate n quote).drop n =
      w ++ List.replicate n quote := by
    rw [List.append_assoc]
    exact List.drop_left' (by simp)
  have hwidth : n + w.length + n - n = n + w.length := by omega
  have hinner : n + w.length + n - 2 * n = w.length := by omega
  rw [between,hlen,hwidth,hinner,if_pos ⟨by omega,hend⟩,hstart,List.take_left]

theorem piece_head {p : Piece} (hp : p.Readable multiline) :
    ∃ c w, p.text = c :: w ∧ c ≠ dquote := by
  cases p with
  | raw code =>
    obtain ⟨c,w,hc⟩ : ∃ c w, encode [code] = c :: w := by
      obtain ⟨-,n,-,-,hform⟩ := ucsToUtf8_inv (encodable_some hp.1)
      exact ⟨_,_,hform⟩
    have hmem : c ∈ encode [code] := by
      rw [hc]
      exact List.mem_cons_self
    exact ⟨c,w,hc,(raw_bytes hp c hmem).1⟩
  | short c => exact ⟨_,_,rfl,by decide⟩
  | four code => exact ⟨_,_,rfl,by decide⟩
  | eight code => exact ⟨_,_,rfl,by decide⟩
  | fold blanks => exact ⟨_,_,rfl,by decide⟩

theorem quoted_single (hps : Placed false ps) :
    startsWith (quoted false ps) [dquote,dquote,dquote] = false := by
  cases ps with
  | nil => rfl
  | cons p ps =>
    obtain ⟨c,w,htext,hc⟩ := piece_head hps.1
    have hquoted : quoted false (p :: ps) = dquote :: c :: (w ++ textOf ps ++ [dquote]) := by
      simp [quoted,delimiter,textOf,htext]
    rw [hquoted,Bool.eq_false_iff]
    intro h
    obtain ⟨t,ht⟩ := List.isPrefixOf_iff_prefix.mp h
    rw [List.cons_append,List.cons_append] at ht
    exact hc (List.cons.inj (List.cons.inj ht).2).1.symm

theorem scans_quoted (hps : Placed multiline ps) (dotisspecial : Bool) :
    Scans dotisspecial (quoted multiline ps) := by
  cases multiline with
  | false =>
    have hs : startsWith (quoted false ps) [squote,squote,squote] = false := rfl
    have hq : quoteLoop 0 false (quoted false ps).tail = .ok [dquote] :=
      (quoteLoop_walks.pieces hps [dquote]).trans rfl
    refine ⟨List.cons_ne_nil _ _,?_⟩
    rw [scanEnd,hs,quoted_single hps,hq]
    rfl
  | true =>
    have hs : startsWith (quoted true ps) [squote,squote,squote] = false := rfl
    have hd : startsWith (quoted true ps) [dquote,dquote,dquote] = true := rfl
    have hq : tripleLoop 0 false 0 ((quoted true ps).drop 3) = .ok ([],3) := by
      have hnewline := tripleLoop_walks.plain (c := newline) (by decide) (by decide) (by decide)
        (textOf ps ++ delimiter true)
      exact hnewline.trans ((tripleLoop_walks.pieces hps _).trans rfl)
    refine ⟨List.cons_ne_nil _ _,?_⟩
    rw [scanEnd,hs,hd,hq]
    rfl

theorem tomlRtos_quoted (hps : Placed multiline ps) :
    tomlRtos (quoted multiline ps) = some (encode (codesOf ps)) := by
  have hret : normalizeString (textOf ps) true = .ok (encode (codesOf ps)) :=
    normalizeLoop_pieces hps le_rfl
  have hplain := cString_eq (encode_plain (codesOf_encodable hps))
  cases multiline with
  | false =>
    have hbetween : between 1 dquote (quoted false ps) = some (textOf ps) :=
      between_quotes 1 dquote (textOf ps)
    have hhead : (quoted false ps).head? = some dquote := rfl
    rw [tomlRtos,hhead,if_neg (by decide),if_pos rfl,quoted_single hps]
    simp only [Bool.false_eq_true,if_false,hbetween,bind,Option.bind_some,hret,hplain]
    rfl
  | true =>
    have hbetween : between 3 dquote (quoted true ps) = some (newline :: textOf ps) := by
      have hquoted : quoted true ps =
          List.replicate 3 dquote ++ (newline :: textOf ps) ++ List.replicate 3 dquote := by
        simp [quoted,delimiter,List.replicate]
      rw [hquoted,between_quotes]
    have hhead : (quoted true ps).head? = some dquote := rfl
    have hstart : startsWith (quoted true ps) [dquote,dquote,dquote] = true := rfl
    have hskip : skipNewline (newline :: textOf ps) = textOf ps := rfl
    rw [tomlRtos,hhead,if_neg (by decide),if_pos rfl,hstart]
    simp only [if_true,hbetween,Option.map_some,hskip,bind,Option.bind_some,hret,hplain]
    rfl

end quoting

section raws

def raws : List (Bytes × Bytes) → Entries
  | [] => .nil
  | (key,v) :: l => .cons key (.raw v) (raws l)

variable {l : List (Bytes × Bytes)}

theorem raws_names (l : List (Bytes × Bytes)) : (raws l).names = l.map Prod.fst := by
  induction l with
  | nil => rfl
  | cons p l ih => rw [raws,Entries.names,ih,List.map_cons]

theorem raws_wellFormed (strtod : Bytes → Bool) (l : List (Bytes × Bytes)) :
    (raws l).WellFormed strtod := by
  induction l with
  | nil => trivial
  | cons p l ih => exact ⟨trivial,ih⟩

theorem raws_printable (hkeys : ∀ p ∈ l, IsName (some p.1))
    (hraws : ∀ p ∈ l, Scans false p.2 ∧ 0 ∉ p.2) : (raws l).Printable := by
  induction l with
  | nil => trivial
  | cons p l ih =>
    obtain ⟨hkey,hkeys⟩ := List.forall_mem_cons.mp hkeys
    obtain ⟨hraw,hraws⟩ := List.forall_mem_cons.mp hraws
    exact ⟨hkey,hraw,ih hkeys hraws⟩

theorem raws_shown {t : Table} (h : (raws l).Shown t) :
    ∀ p ∈ l, tomlRawIn t p.1 = some p.2 := by
  induction l with
  | nil => simp
  | cons p l ih => exact List.forall_mem_cons.mpr ⟨congrArg Answer.raw h.1,ih h.2⟩

theorem parse_raws {β : Type} (strtod : Bytes → Bool) {es : List β} {key text : β → Bytes}
    (hkeys : ∀ e ∈ es, IsName (some (key e))) (hnodup : (es.map key).Nodup)
    (htexts : ∀ e ∈ es, Scans false (text e) ∧ 0 ∉ text e) :
    ∃ root, tomlParse strtod (enoughFuel (print (raws (es.map fun e => (key e,text e)))))
        (print (raws (es.map fun e => (key e,text e)))) = .ok root ∧
      ∀ e ∈ es, tomlRawIn root (key e) = some (text e) := by
  have hprint := raws_printable (l := es.map fun e => (key e,text e))
    (List.forall_mem_map.mpr hkeys) (List.forall_mem_map.mpr htexts)
  have hdoc := raws_wellFormed strtod (es.map fun e => (key e,text e))
  have hnames : (raws (es.map fun e => (key e,text e))).names.Nodup := by
    rw [raws_names,List.map_map]
    exact hnodup
  have hshown := entries_shown _ (Table.empty none false) hdoc hnames
    (by simp [Table.keys,Table.empty])
  have hparse := tomlParse_reads strtod hdoc hnames (file_writes _ hprint) (spells_print hprint)
  exact ⟨_,hparse,List.forall_mem_map.mp (raws_shown hshown)⟩

end raws

section settings

structure Setting where
  key : Bytes
  multiline : Bool
  pieces : List Piece

def settings : List Setting → Entries
  | [] => .nil
  | s :: ss => .cons s.key (.raw (quoted s.multiline s.pieces)) (settings ss)

theorem hexText_plain (n code : ℕ) : 0 ∉ hexText n code := by
  induction n with
  | zero => simp [hexText]
  | succ n ih =>
    have hmem := (hexByte_value (v := code / 16 ^ n % 16) (Nat.mod_lt _ (by decide))).2
    rw [hexText,List.mem_cons,not_or]
    refine ⟨?_,ih⟩
    intro hzero
    rw [← hzero] at hmem
    exact absurd hmem (by decide)

theorem piece_plain {multiline : Bool} {p : Piece} (hp : p.Readable multiline) : 0 ∉ p.text := by
  cases p with
  | raw code => exact encode_plain (piece_encodable hp)
  | short c =>
    obtain ⟨out,hout⟩ := Option.isSome_iff_exists.mp hp
    have hmem := (escapeOf_some hout).1
    rw [Piece.text,List.mem_cons,List.mem_singleton,not_or]
    refine ⟨by decide,?_⟩
    rintro rfl
    exact absurd hmem (by decide)
  | four code => simpa [Piece.text] using ⟨by decide,by decide,hexText_plain 4 code⟩
  | eight code => simpa [Piece.text] using ⟨by decide,by decide,hexText_plain 8 code⟩
  | fold blanks =>
    rw [Piece.text,List.mem_cons,List.mem_cons,not_or,not_or]
    refine ⟨by decide,by decide,?_⟩
    intro hzero
    exact absurd (hp.2 0 hzero) (by decide)

theorem quoted_plain {multiline : Bool} {ps : List Piece} (hps : Placed multiline ps) :
    0 ∉ quoted multiline ps := by
  have htext : 0 ∉ textOf ps := by
    induction ps with
    | nil => simp [textOf]
    | cons p ps ih =>
      obtain ⟨hp,-,hrest⟩ := hps
      rw [textOf,List.flatMap_cons,List.mem_append,not_or]
      exact ⟨piece_plain hp,ih hrest⟩
  have hquotes : 0 ∉ delimiter multiline ++ (if multiline then [newline] else []) ∧
      0 ∉ delimiter multiline := by
    cases multiline <;> decide
  rw [quoted,List.mem_append,List.mem_append,not_or,not_or]
  exact ⟨⟨hquotes.1,htext⟩,hquotes.2⟩

theorem settings_raws (ss : List Setting) :
    settings ss = raws (ss.map fun s => (s.key,quoted s.multiline s.pieces)) := by
  induction ss with
  | nil => rfl
  | cons s ss ih => rw [settings,ih,List.map_cons,raws]

end settings

section witness

def price : Setting :=
  ⟨cstr "price",true,[.raw 0x20AC,.fold [space,newline],.four 0xE9,.short dquote,.eight 0x1F600]⟩

theorem price_placed : ∀ s ∈ [price], Placed s.multiline s.pieces := by
  have hraw : (Piece.raw 0x20AC).Readable true := ⟨by decide,by decide,by decide,by simp⟩
  have hfold : (Piece.fold [space,newline]).Readable true := ⟨rfl,by decide +kernel⟩
  have hfour : (Piece.four 0xE9).Readable true := ⟨by decide,by decide⟩
  have hshort : (Piece.short dquote).Readable true := rfl
  have height : (Piece.eight 0x1F600).Readable true := (by decide : Encodable 0x1F600)
  have hbehind : ∀ c ∈ (textOf [.four 0xE9,.short dquote,.eight 0x1F600]).head?,
      isSpacing c = false := by decide +kernel
  rw [List.forall_mem_singleton]
  exact ⟨hraw,by simp,hfold,fun _ _ => hbehind,hfour,by simp,hshort,by simp,height,by simp,trivial⟩

end witness

end Toml
