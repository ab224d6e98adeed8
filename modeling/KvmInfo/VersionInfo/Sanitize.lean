import KvmInfo.Go.Utf8
import KvmInfo.VersionInfo.Check

namespace VersionInfo
open Go GoVersion PrefixCode

def isSeparator (r : Rune) : Bool := r == dashRune || r == dotRune

def VersionRun (s : Str) : Prop := ∀ r ∈ runes s, inVersion r = true

def EndsWith (P : Rune → Bool) (s : Str) : Prop := ∃ r ∈ (runes s).getLast?, P r = true

-- Of the longest prefix of version characters, the longest prefix that is empty or ends with a digit.
def Sanitized (ver out : Str) : Prop :=
  ∃ p, IsLongest VersionRun ver p ∧ IsLongest (fun q => q = [] ∨ EndsWith isDigit q) p out

-- The version characters end with a separator at the end of the string, or with two before a tag.
def Dangling (ver : Str) : Prop :=
  ∃ p tag, ver = p ++ tag ∧ VersionRun p ∧
    ((tag = [] ∧ EndsWith isSeparator p) ∨
      (startsTag tag ∧ ∃ rs r₁ r₂, runes p = rs ++ [r₁,r₂] ∧ isSeparator r₁ = true ∧
        isSeparator r₂ = true))

theorem sanitized_existsUnique (ver : Str) : ∃! out, Sanitized ver out := by
  have hempty : VersionRun [] := by simp [VersionRun,runes,rangeString,rangeFrom]
  obtain ⟨p,hp⟩ := exists_isLongest hempty ver
  obtain ⟨out,hout⟩ := exists_isLongest (P := fun q => q = [] ∨ EndsWith isDigit q) (Or.inl rfl) p
  refine ⟨out,⟨p,hp,hout⟩,?_⟩
  rintro out' ⟨p',hp',hout'⟩
  obtain rfl := hp.unique hp'
  exact hout'.unique hout

theorem separator_cases {r : Rune} (h : isSeparator r = true) : isDigit r = false ∧ r < 0x80 := by
  simp only [isSeparator,Bool.or_eq_true,beq_iff_eq] at h
  rcases h with rfl | rfl <;> decide

theorem inVersion_iff {r : Rune} : inVersion r = true ↔ isDigit r = true ∨ isSeparator r = true := by
  simp [inVersion,isSeparator,or_assoc]

abbrev Versions (gs : List Glyph) : Prop := ∀ g ∈ gs, inVersion g.rune = true

abbrev Tagged (s : Str) : Prop := ¬utf8.Starts (fun g => inVersion g.rune = true) s

theorem tagged_iff {s : Str} : Tagged s ↔ s = [] ∨ startsTag s := by
  constructor
  · intro h
    by_cases hs : s = []
    · exact Or.inl hs
    · refine Or.inr ⟨hs,Bool.eq_false_iff.mpr (fun hin => ?_)⟩
      have hvalid : decodeRune s ≠ (runeError,1) := by
        intro he
        rw [he] at hin
        exact absurd hin (by decide)
      obtain ⟨g,t,rfl⟩ := exists_glyph hs hvalid
      rw [decodeRune_glyph] at hin
      exact h ⟨g,t,hin,rfl⟩
  · rintro h ⟨g,t,hin,rfl⟩
    rcases h with h | ⟨-,h⟩
    · exact g.nonempty (List.append_eq_nil_iff.mp h).1
    · rw [utf8_word,decodeRune_glyph] at h
      exact absurd hin (by simp [h])

theorem versionRun_iff {s : Str} : VersionRun s ↔ ∃ gs, Versions gs ∧ s = utf8.spell gs := by
  constructor
  · intro h
    obtain ⟨gs,t,rfl,hgs,ht⟩ := utf8.exists_spell (fun g => inVersion g.rune = true) s
    rcases tagged_iff.mp ht with rfl | ⟨hne,htag⟩
    · exact ⟨gs,hgs,List.append_nil _⟩
    · obtain ⟨rest,hrunes⟩ := runes_head hne
      have hin := h (decodeRune t).1 (by simp [runes_spell,hrunes])
      exact absurd hin (by simp [htag])
  · rintro ⟨gs,hgs,rfl⟩
    simpa [VersionRun,runes_spelled] using hgs

theorem endsWith_spell {P : Rune → Bool} {gs : List Glyph} :
    EndsWith P (utf8.spell gs) ↔ ∃ g ∈ gs.getLast?, P g.rune = true := by
  simp [EndsWith,runes_spelled]

theorem endsWith_concat {P : Rune → Bool} {gs : List Glyph} {g : Glyph} :
    EndsWith P (utf8.spell (gs ++ [g])) ↔ P g.rune = true := by
  rw [endsWith_spell,List.getLast?_concat]
  simp

-- The last rune of a cut encoding is an error, which is no digit.
theorem digit_prefix {gs : List Glyph} {q : Str} (hq : q <+: utf8.spell gs)
    (hdigit : EndsWith isDigit q) : ∃ gs', gs' <+: gs ∧ q = utf8.spell gs' := by
  obtain ⟨gs',w,hgs',rfl,hw⟩ := Code.prefix_spell hq
  by_cases hnil : w = []
  · exact ⟨gs',hgs',by rw [hnil,List.append_nil]⟩
  · obtain ⟨g,hcut,hne⟩ := hw.resolve_left hnil
    obtain ⟨rs,hrunes⟩ := runes_head hnil
    obtain ⟨r,hr,hd⟩ := hdigit
    have hmem : r ∈ runes w := by
      rw [runes_spell,hrunes,List.getLast?_append_cons,← hrunes] at hr
      exact List.mem_of_getLast? hr
    rw [runes_cut hcut hne r hmem] at hd
    exact absurd hd (by decide)

theorem spell_sanitized {out seps : List Glyph} (hseps : ∀ g ∈ seps, isDigit g.rune = false) :
    IsLongest (fun q => q = [] ∨ EndsWith isDigit q) (utf8.spell (out ++ seps)) (utf8.spell out) ↔
      out = [] ∨ EndsWith isDigit (utf8.spell out) := by
  constructor
  · intro h
    exact h.2.1.imp_left (utf8.spell_eq_nil).mp
  · intro h
    refine ⟨utf8.spell_prefix (List.prefix_append out seps),h.imp_left (utf8.spell_eq_nil).mpr,?_⟩
    rintro q hq (rfl | hdigit)
    · exact Nat.zero_le _
    · obtain ⟨gs,⟨u,hu⟩,rfl⟩ := digit_prefix hq hdigit
      rcases List.append_eq_append_iff.mp hu with ⟨r,hr,-⟩ | ⟨r,rfl,hr⟩
      · exact (utf8.spell_prefix ⟨r,hr.symm⟩).length_le
      · rcases List.eq_nil_or_concat' r with rfl | ⟨r,g,rfl⟩
        · rw [List.append_nil]
        · rw [← List.append_assoc,endsWith_concat] at hdigit
          have hg := hseps g (by simp [hr])
          exact absurd hdigit (by simp [hg])

theorem sanitizeLoop_spell {ver : Str} {gs : List Glyph} (hgs : Versions gs) (t : Str) (pc : Rune)
    (i : ℕ) : sanitizeLoop ver pc (rangeFrom 0 i (utf8.spell gs ++ t)) =
      sanitizeLoop ver ((gs.getLast?.map Glyph.rune).getD pc)
        (rangeFrom 0 (i + (utf8.spell gs).length) t) := by
  induction gs generalizing pc i with
  | nil => rfl
  | cons g gs ih =>
    rw [Versions,List.forall_mem_cons] at hgs
    rw [Code.spell_cons,utf8_word,List.append_assoc,rangeFrom_glyph,sanitizeLoop,if_pos hgs.1,
      ih hgs.2,List.length_append,Nat.add_assoc,List.getLast?_cons]
    cases gs.getLast? <;> rfl

inductive Exit : List Glyph → Str → List Glyph → Prop where
  | whole (gs : List Glyph) : Exit gs [] gs
  | tag {gs : List Glyph} {t : Str} (ht : startsTag t)
      (hlast : gs = [] ∨ EndsWith isDigit (utf8.spell gs)) : Exit gs t gs
  | back {gs : List Glyph} {sep : Glyph} {t : Str} (ht : startsTag t)
      (hsep : isSeparator sep.rune = true) : Exit (gs ++ [sep]) t gs

theorem exists_exit (gs : List Glyph) {t : Str} (hgs : Versions gs) (ht : Tagged t) :
    ∃ out, Exit gs t out := by
  rcases tagged_iff.mp ht with rfl | htag
  · exact ⟨gs,.whole gs⟩
  · rcases List.eq_nil_or_concat' gs with rfl | ⟨l,g,rfl⟩
    · exact ⟨[],.tag htag (Or.inl rfl)⟩
    · rcases inVersion_iff.mp (hgs g (by simp)) with hd | hsep
      · exact ⟨_,.tag htag (Or.inr (endsWith_concat.mpr hd))⟩
      · exact ⟨l,.back htag hsep⟩

theorem Exit.sanitizes {gs out : List Glyph} {t : Str} (h : Exit gs t out) (hgs : Versions gs) :
    sanitizeVersion (utf8.spell gs ++ t) = .ok (utf8.spell out) := by
  rw [sanitizeVersion,rangeString,sanitizeLoop_spell hgs,Nat.zero_add]
  cases h with
  | whole => rw [List.append_nil]; rfl
  | tag ht hlast =>
    obtain ⟨rest,hrest⟩ := rangeFrom_head (utf8.spell gs).length t ht.1
    have hcut : ¬(((utf8.spell gs).length : ℤ) > 0 &&
        !isDigit ((gs.getLast?.map Glyph.rune).getD 0)) = true := by
      rcases hlast with rfl | hdigit
      · simp
      · obtain ⟨g,hg,hd⟩ := endsWith_spell.mp hdigit
        rw [Option.mem_def.mp hg]
        simp [hd]
    rw [hrest,sanitizeLoop,if_neg (by simp [ht.2]),if_neg hcut,sliceTo_ok _ _ (by simp),List.take_left]
  | @back _ sep _ ht hsep =>
    obtain ⟨rest,hrest⟩ := rangeFrom_head (utf8.spell (out ++ [sep])).length t ht.1
    obtain ⟨hnd,hlow⟩ := separator_cases hsep
    have hspell : utf8.spell (out ++ [sep]) = utf8.spell out ++ sep.bytes := by simp
    have hlen : (utf8.spell (out ++ [sep])).length = (utf8.spell out).length + 1 := by
      rw [hspell,List.length_append,Glyph.single hlow]
    have hpos : (((utf8.spell (out ++ [sep])).length : ℤ) > 0 &&
        !isDigit (((out ++ [sep]).getLast?.map Glyph.rune).getD 0)) = true := by
      rw [hlen,List.getLast?_concat]
      simp [hnd]
    have hcast : ((utf8.spell (out ++ [sep])).length : ℤ) - 1 = ((utf8.spell out).length : ℕ) := by
      rw [hlen]
      simp
    rw [hrest,sanitizeLoop,if_neg (by simp [ht.2]),if_pos hpos,hcast,hspell,List.append_assoc,
      sliceTo_ok _ _ (by simp),List.take_left]

theorem Exit.split {gs out : List Glyph} {t : Str} (h : Exit gs t out) :
    ∃ seps, gs = out ++ seps ∧ ∀ g ∈ seps, isDigit g.rune = false := by
  cases h with
  | whole => exact ⟨[],by simp,by simp⟩
  | tag => exact ⟨[],by simp,by simp⟩
  | back ht hsep => exact ⟨_,rfl,by simpa using (separator_cases hsep).1⟩

theorem not_separator_iff {gs : List Glyph} (hgs : Versions gs) :
    ¬EndsWith isSeparator (utf8.spell gs) ↔ gs = [] ∨ EndsWith isDigit (utf8.spell gs) := by
  rcases List.eq_nil_or_concat' gs with rfl | ⟨l,g,rfl⟩
  · rw [endsWith_spell]
    simp
  · rw [endsWith_concat,endsWith_concat]
    rcases inVersion_iff.mp (hgs g (by simp)) with hd | hsep
    · have hns : isSeparator g.rune ≠ true := by
        intro h
        simp [(separator_cases h).1] at hd
      simp [hd,hns]
    · simp [hsep,(separator_cases hsep).1]

theorem versionRun_longest {gs : List Glyph} {t : Str} (hgs : Versions gs) (ht : Tagged t) :
    IsLongest VersionRun (utf8.spell gs ++ t) (utf8.spell gs) := by
  have hrun : VersionRun = fun q => ∃ gs, Versions gs ∧ q = utf8.spell gs :=
    funext fun q => propext versionRun_iff
  rw [hrun]
  exact Code.spell_isLongest hgs ht

theorem Exit.sanitized_iff {gs out : List Glyph} {t : Str} (h : Exit gs t out) (hgs : Versions gs)
    (ht : Tagged t) :
    Sanitized (utf8.spell gs ++ t) (utf8.spell out) ↔ ¬EndsWith isSeparator (utf8.spell out) := by
  have hlongest := versionRun_longest hgs ht
  obtain ⟨seps,rfl,hseps⟩ := h.split
  have hout : Versions out := fun g hg => hgs g (List.mem_append_left seps hg)
  rw [not_separator_iff hout,← spell_sanitized hseps]
  constructor
  · rintro ⟨p,hp,hmax⟩
    rwa [hlongest.unique hp]
  · intro hmax
    exact ⟨_,hlongest,hmax⟩

theorem dangling_spell {gs : List Glyph} {t : Str} (hgs : Versions gs) (ht : Tagged t) :
    Dangling (utf8.spell gs ++ t) ↔ (t = [] ∧ EndsWith isSeparator (utf8.spell gs)) ∨
      (startsTag t ∧ ∃ rs r₁ r₂, gs.map Glyph.rune = rs ++ [r₁,r₂] ∧ isSeparator r₁ = true ∧
        isSeparator r₂ = true) := by
  rw [← runes_spelled gs]
  constructor
  · rintro ⟨p,tag,hp,hrun,h⟩
    obtain ⟨gs',hgs',rfl⟩ := versionRun_iff.mp hrun
    have htag : Tagged tag := tagged_iff.mpr (h.imp And.left And.left)
    obtain ⟨rfl,rfl⟩ := Code.spell_unique hgs hgs' ht htag hp
    exact h
  · intro h
    exact ⟨_,t,rfl,versionRun_iff.mpr ⟨gs,hgs,rfl⟩,h⟩

theorem Exit.dangling_iff {gs out : List Glyph} {t : Str} (h : Exit gs t out) (hgs : Versions gs)
    (ht : Tagged t) : EndsWith isSeparator (utf8.spell out) ↔ Dangling (utf8.spell gs ++ t) := by
  rw [dangling_spell hgs ht]
  cases h with
  | whole => simp [startsTag]
  | tag htag hlast =>
    have hnot := (not_separator_iff hgs).mpr hlast
    refine ⟨fun hsep => absurd hsep hnot,?_⟩
    rintro (⟨-,hsep⟩ | ⟨-,rs,r₁,r₂,hrs,-,hsep⟩)
    · exact hsep
    · exact ⟨r₂,by rw [runes_spelled,hrs]; simp,hsep⟩
  | @back _ sep _ htag hsep =>
    rw [EndsWith,runes_spelled,List.map_append,List.map_singleton]
    constructor
    · rintro ⟨r,hr,hr₁⟩
      obtain ⟨rs,hrs⟩ := List.getLast?_eq_some_iff.mp hr
      exact Or.inr ⟨htag,rs,r,sep.rune,by rw [hrs,List.append_assoc]; rfl,hr₁,hsep⟩
    · rintro (⟨rfl,-⟩ | ⟨-,rs,r₁,r₂,hrs,hr₁,-⟩)
      · exact absurd rfl htag.1
      · have hsplit : out.map Glyph.rune ++ [sep.rune] = (rs ++ [r₁]) ++ [r₂] := by simpa using hrs
        rw [(List.append_inj' hsplit rfl).1]
        exact ⟨r₁,by simp,hr₁⟩

theorem Exit.unchanged_iff {gs out : List Glyph} {t : Str} (h : Exit gs t out) (ht : startsTag t) :
    utf8.spell out = utf8.spell gs ↔ gs = [] ∨ EndsWith isDigit (utf8.spell gs) := by
  cases h with
  | whole => exact absurd rfl ht.1
  | tag _ hlast => exact ⟨fun _ => hlast,fun _ => rfl⟩
  | @back _ sep _ _ hsep =>
    rw [endsWith_concat]
    simp [(separator_cases hsep).1,sep.nonempty]

theorem sanitizeVersion_run {p : Str} (hp : VersionRun p) : sanitizeVersion p = .ok p := by
  obtain ⟨gs,hgs,rfl⟩ := versionRun_iff.mp hp
  have hwhole := (Exit.whole gs).sanitizes hgs
  rwa [List.append_nil] at hwhole

theorem sanitizeVersion_tag {p s : Str} (hp : VersionRun p) (hlast : EndsWith isDigit p)
    (hs : startsTag s) : sanitizeVersion (p ++ s) = .ok p := by
  obtain ⟨gs,hgs,rfl⟩ := versionRun_iff.mp hp
  exact (Exit.tag hs (Or.inr hlast)).sanitizes hgs

theorem sanitizeVersion_separator {p s : Str} {sep : UInt8} (hp : VersionRun p)
    (hsep : sep = dot ∨ sep = dash) (hs : startsTag s) : sanitizeVersion (p ++ sep :: s) = .ok p := by
  obtain ⟨gs,hgs,rfl⟩ := versionRun_iff.mp hp
  have hrune : isSeparator sep.toNat = true := by rcases hsep with rfl | rfl <;> decide
  let g := asciiGlyph sep (versionByte_ascii (Or.inr hsep))
  have hall : Versions (gs ++ [g]) := by
    intro g' hg'
    rcases List.mem_append.mp hg' with hg' | hg'
    · exact hgs g' hg'
    · rw [List.mem_singleton.mp hg']
      exact inVersion_iff.mpr (Or.inr hrune)
  have hback : sanitizeVersion (utf8.spell (gs ++ [g]) ++ s) = .ok (utf8.spell gs) :=
    Exit.sanitizes (.back hs hrune) hall
  rwa [Code.spell_append,List.append_assoc] at hback

theorem runes_plain {p : Str} (hp : ∀ b ∈ p, versionByte b) : runes p = p.map UInt8.toNat := by
  induction p with
  | nil => rfl
  | cons b p ih =>
    rw [List.forall_mem_cons] at hp
    rw [runes_ascii (versionByte_ascii hp.1),ih hp.2,List.map_cons]

theorem versionRun_plain {p : Str} (hp : ∀ b ∈ p, versionByte b) : VersionRun p := by
  intro r hr
  rw [runes_plain hp] at hr
  obtain ⟨b,hb,rfl⟩ := List.mem_map.mp hr
  exact (inVersion_ascii (versionByte_ascii (hp b hb))).mpr (hp b hb)

theorem endsWith_plain {p : Str} (hp : ∀ b ∈ p, versionByte b)
    (hlast : ∃ b, p.getLast? = some b ∧ isDecimal b = true) : EndsWith isDigit p := by
  obtain ⟨b,hb,hd⟩ := hlast
  refine ⟨b.toNat,by rw [runes_plain hp,List.getLast?_map,hb]; rfl,?_⟩
  rwa [isDigit_ascii b (versionByte_ascii (Or.inl hd))]

theorem sanitizeVersion_exact_iff (ver p suffix : Str) :
    (∃ out, sanitizeVersion ver = .ok out ∧ (Sanitized ver out ↔ ¬Dangling ver) ∧
      (EndsWith isSeparator out ↔ Dangling ver)) ∧
    (VersionRun p → startsTag suffix →
      (sanitizeVersion (p ++ suffix) = sanitizeVersion p ↔ p = [] ∨ EndsWith isDigit p)) := by
  refine ⟨?_,fun hp hsuffix => ?_⟩
  · obtain ⟨gs,t,rfl,hgs,ht⟩ := utf8.exists_spell (fun g => inVersion g.rune = true) ver
    obtain ⟨out,hexit⟩ := exists_exit gs hgs ht
    have hdangling := hexit.dangling_iff hgs ht
    refine ⟨_,hexit.sanitizes hgs,?_,hdangling⟩
    rw [hexit.sanitized_iff hgs ht,hdangling]
  · obtain ⟨gs,hgs,rfl⟩ := versionRun_iff.mp hp
    obtain ⟨out,hexit⟩ := exists_exit gs hgs (tagged_iff.mpr (Or.inr hsuffix))
    rw [hexit.sanitizes hgs,sanitizeVersion_run hp,Except.ok.injEq,utf8.spell_eq_nil,hexit.unchanged_iff hsuffix]

theorem sanitizeVersion_exact_el7 :
    sanitizeVersion (str "3.10.0" ++ str "el7") = sanitizeVersion (str "3.10.0") := by
  have hrun : ∀ r ∈ runes (str "3.10.0"), inVersion r = true := by decide
  have htag : startsTag (str "el7") := ⟨by decide,by decide⟩
  have hlast : EndsWith isDigit (str "3.10.0") := ⟨0x30,by decide,by decide⟩
  exact ((sanitizeVersion_exact_iff [] (str "3.10.0") (str "el7")).2 hrun htag).mpr (Or.inr hlast)

theorem sanitizeVersion_dangles :
    ¬∀ ver, ∃ out, sanitizeVersion ver = .ok out ∧ Sanitized ver out := by
  intro h
  obtain ⟨out,hout,p,-,-,hlast,-⟩ := h (str "3.10.0-")
  have hself : sanitizeVersion (str "3.10.0-") = .ok (str "3.10.0-") := by decide
  rw [hself,Except.ok.injEq] at hout
  rw [← hout] at hlast
  rcases hlast with hnil | ⟨r,hr,hd⟩
  · exact absurd hnil (by decide)
  · have hdash : (runes (str "3.10.0-")).getLast? = some dashRune := by decide
    rw [hdash] at hr
    cases hr
    exact absurd hd (by decide)

end VersionInfo
