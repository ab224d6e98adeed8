import KvmInfo.Library.PrefixCode
import KvmInfo.Go.Unicode

namespace Go
open PrefixCode

def runes (s : Str) : List Rune := (rangeString s).map Prod.snd

@[ext] structure Glyph where
  bytes : Str
  rune : Rune
  nonempty : bytes ≠ []
  decodes : decodeRune bytes = (rune,bytes.length)
  valid : decodeRune bytes ≠ (runeError,1)

theorem acceptRange_isCont {b lo hi c : UInt8} {n : ℕ} (h : acceptRange b = some (n,lo,hi))
    (hc : lo ≤ c ∧ c ≤ hi) : isCont c = true := by
  have hhi : hi ≤ 0xBF := by
    unfold acceptRange at h
    split_ifs at h <;> cases h <;> decide
  simpa [isCont] using ⟨UInt8.le_trans (acceptRange_cont h) hc.1,UInt8.le_trans hc.2 hhi⟩

theorem acceptRange_two {b lo hi : UInt8} (h : acceptRange b = some (2,lo,hi)) :
    2 ≤ low b 0x20 := by
  unfold acceptRange at h
  split_ifs at h with hb <;> try cases h
  simp only [UInt8.le_iff_toNat_le,UInt8.reduceToNat] at hb
  unfold low
  omega

theorem acceptRange_three {b lo hi c : UInt8} (h : acceptRange b = some (3,lo,hi))
    (hc : lo ≤ c ∧ c ≤ hi) : 1 ≤ low b 0x10 ∨ 0x20 ≤ low c 0x40 := by
  unfold acceptRange at h
  split_ifs at h with h₁ h₂ h₃ h₄ <;> cases h
  · simp only [UInt8.le_iff_toNat_le,UInt8.reduceToNat] at hc
    unfold low
    omega
  · subst h₃
    exact Or.inl (by decide)
  · simp only [UInt8.le_iff_toNat_le,UInt8.reduceToNat,← UInt8.toNat_inj] at h₂ h₄
    unfold low
    omega

theorem acceptRange_four {b lo hi c : UInt8} (h : acceptRange b = some (4,lo,hi))
    (hc : lo ≤ c ∧ c ≤ hi) : 1 ≤ low b 0x08 ∨ 0x10 ≤ low c 0x40 := by
  unfold acceptRange at h
  split_ifs at h with h₁ h₂ h₃ h₄ h₅ h₆ h₇ <;> cases h
  · simp only [UInt8.le_iff_toNat_le,UInt8.reduceToNat] at hc
    unfold low
    omega
  · simp only [UInt8.le_iff_toNat_le,UInt8.reduceToNat] at h₆
    unfold low
    omega
  · subst h₇
    exact Or.inl (by decide)

structure Sequence (b0 : UInt8) (u : Str) : Prop where
  stable : ∀ t, decodeMulti b0 (u ++ t) = decodeMulti b0 u
  width : (decodeMulti b0 u).2 = u.length + 1
  cont : ∀ c ∈ u, isCont c = true
  high : 0x80 ≤ (decodeMulti b0 u).1

theorem sequence_of_decode {b0 : UInt8} {u : Str} {r : Rune}
    (hdecode : ∀ t, decodeMulti b0 (u ++ t) = (r,u.length + 1)) (hcont : ∀ c ∈ u, isCont c = true)
    (hhigh : 0x80 ≤ r) : Sequence b0 u := by
  have hself := hdecode []
  rw [List.append_nil] at hself
  exact ⟨fun t => (hdecode t).trans hself.symm,by rw [hself],hcont,by rwa [hself]⟩

theorem decodeMulti_cases (b0 : UInt8) (s : Str) :
    decodeMulti b0 s = (runeError,1) ∨ ∃ u t, s = u ++ t ∧ Sequence b0 u := by
  rw [decodeMulti.eq_def]
  split
  · rename_i lo hi b1 t h
    split_ifs with hr
    · have hlow := acceptRange_two h
      have hhigh : (0x80 : ℕ) ≤ low b0 0x20 * 0x40 + low b1 0x40 := by omega
      refine Or.inr ⟨[b1],t,rfl,sequence_of_decode (fun t => ?_) ?_ hhigh⟩
      · simp only [List.singleton_append,decodeMulti,h,if_pos hr,List.length_singleton]
      · simpa using acceptRange_isCont h hr
    · exact Or.inl rfl
  · rename_i lo hi b1 b2 t h
    split_ifs with hr
    · have hlow := acceptRange_three h ⟨hr.1,hr.2.1⟩
      have hhigh : (0x80 : ℕ) ≤ low b0 0x10 * 0x1000 + low b1 0x40 * 0x40 + low b2 0x40 := by omega
      refine Or.inr ⟨[b1,b2],t,rfl,sequence_of_decode (fun t => ?_) ?_ hhigh⟩
      · simp only [List.cons_append,List.nil_append,decodeMulti,h,if_pos hr,List.length_cons,
          List.length_nil]
      · simpa using ⟨acceptRange_isCont h ⟨hr.1,hr.2.1⟩,hr.2.2⟩
    · exact Or.inl rfl
  · rename_i lo hi b1 b2 b3 t h
    split_ifs with hr
    · have hlow := acceptRange_four h ⟨hr.1,hr.2.1⟩
      have hhigh : (0x80 : ℕ) ≤ low b0 0x08 * 0x40000 + low b1 0x40 * 0x1000 + low b2 0x40 * 0x40 +
          low b3 0x40 := by omega
      refine Or.inr ⟨[b1,b2,b3],t,rfl,sequence_of_decode (fun t => ?_) ?_ hhigh⟩
      · simp only [List.cons_append,List.nil_append,decodeMulti,h,if_pos hr,List.length_cons,
          List.length_nil]
      · simpa using ⟨acceptRange_isCont h ⟨hr.1,hr.2.1⟩,hr.2.2⟩
    · exact Or.inl rfl
  · exact Or.inl rfl

theorem Glyph.cases (g : Glyph) :
    (∃ b, b < 0x80 ∧ g.bytes = [b]) ∨
      ∃ b0 u, ¬b0 < 0x80 ∧ g.bytes = b0 :: u ∧ Sequence b0 u := by
  obtain ⟨b0,s,hs⟩ := List.exists_cons_of_ne_nil g.nonempty
  have hdecodes := g.decodes
  have hvalid := g.valid
  rw [hs] at hdecodes hvalid
  by_cases hb : b0 < 0x80
  · rw [decodeRune_ascii b0 s hb,Prod.mk.injEq,List.length_cons] at hdecodes
    have hnil : s = [] := List.length_eq_zero_iff.mp (by omega)
    exact Or.inl ⟨b0,hb,by rw [hs,hnil]⟩
  · rw [decodeRune,if_neg hb] at hdecodes hvalid
    rcases decodeMulti_cases b0 s with h | ⟨u,t,rfl,hu⟩
    · exact absurd h hvalid
    · have hwidth : u.length + 1 = (b0 :: (u ++ t)).length := by
        rw [← hu.width,← hu.stable t,hdecodes]
      rw [List.length_cons,List.length_append] at hwidth
      have hnil : t = [] := List.length_eq_zero_iff.mp (by omega)
      exact Or.inr ⟨b0,u,hb,by rw [hs,hnil,List.append_nil],hu⟩

theorem decodeRune_glyph (g : Glyph) (t : Str) :
    decodeRune (g.bytes ++ t) = (g.rune,g.bytes.length) := by
  rw [← g.decodes]
  rcases g.cases with ⟨b,hb,hg⟩ | ⟨b0,u,hb,hg,hu⟩
  · rw [hg,List.singleton_append,decodeRune_ascii _ _ hb,decodeRune_ascii _ _ hb]
  · rw [hg,List.cons_append,decodeRune,decodeRune,if_neg hb,if_neg hb,hu.stable]

def asciiGlyph (b : UInt8) (hb : b < 0x80) : Glyph where
  bytes := [b]
  rune := b.toNat
  nonempty := List.cons_ne_nil b []
  decodes := decodeRune_ascii b [] hb
  valid := by
    have := b.toNat_lt
    rw [decodeRune_ascii b [] hb,Ne,Prod.mk.injEq,runeError]
    omega

theorem exists_glyph {s : Str} (hne : s ≠ []) (hs : decodeRune s ≠ (runeError,1)) :
    ∃ g : Glyph, ∃ t, s = g.bytes ++ t := by
  obtain ⟨b0,s,rfl⟩ := List.exists_cons_of_ne_nil hne
  by_cases hb : b0 < 0x80
  · exact ⟨asciiGlyph b0 hb,s,rfl⟩
  · rw [decodeRune,if_neg hb] at hs
    rcases decodeMulti_cases b0 s with h | ⟨u,t,rfl,hu⟩
    · exact absurd h hs
    · have hd : decodeRune (b0 :: u) = decodeMulti b0 u := by rw [decodeRune,if_neg hb]
      rw [hu.stable] at hs
      exact ⟨⟨b0 :: u,(decodeMulti b0 u).1,by simp,hd.trans (Prod.ext rfl hu.width),by rwa [hd]⟩,t,rfl⟩

theorem glyph_free {g h : Glyph} {s t : Str} (he : g.bytes ++ s = h.bytes ++ t) : g = h := by
  have hg := decodeRune_glyph g s
  rw [he,decodeRune_glyph h t,Prod.mk.injEq] at hg
  exact Glyph.ext (List.append_inj_left he hg.2.symm) hg.1.symm

def utf8 : Code Glyph UInt8 := ⟨Glyph.bytes,Glyph.nonempty,glyph_free⟩

@[simp] theorem utf8_word (g : Glyph) : utf8.word g = g.bytes := rfl

theorem Glyph.single {g : Glyph} (h : g.rune < 0x80) : g.bytes.length = 1 := by
  rcases g.cases with ⟨b,-,hg⟩ | ⟨b0,u,hb,hg,hu⟩
  · rw [hg,List.length_singleton]
  · have hd := g.decodes
    rw [hg,decodeRune,if_neg hb] at hd
    have := hu.high
    rw [hd] at this
    exact absurd h (not_lt.mpr this)

theorem rangeFrom_skip (u t : Str) (i : ℕ) :
    rangeFrom u.length i (u ++ t) = rangeFrom 0 (i + u.length) t := by
  induction u generalizing i with
  | nil => rfl
  | cons b u ih =>
    rw [List.length_cons,List.cons_append,rangeFrom,ih,Nat.add_assoc,Nat.add_comm 1]

theorem rangeFrom_glyph (g : Glyph) (t : Str) (i : ℕ) :
    rangeFrom 0 i (g.bytes ++ t) = (i,g.rune) :: rangeFrom 0 (i + g.bytes.length) t := by
  have hd := decodeRune_glyph g t
  obtain ⟨b,u,hg⟩ := List.exists_cons_of_ne_nil g.nonempty
  rw [hg,List.cons_append] at hd ⊢
  rw [rangeFrom,hd]
  simp only [List.length_cons,Nat.add_sub_cancel]
  rw [rangeFrom_skip,Nat.add_assoc,Nat.add_comm 1]

theorem rangeFrom_runes (s : Str) (skip i j : ℕ) :
    (rangeFrom skip i s).map Prod.snd = (rangeFrom skip j s).map Prod.snd := by
  induction s generalizing skip i j with
  | nil => rfl
  | cons b s ih =>
    cases skip with
    | succ skip => exact ih skip (i + 1) (j + 1)
    | zero =>
      rw [rangeFrom,rangeFrom,List.map_cons,List.map_cons]
      exact congrArg _ (ih _ (i + 1) (j + 1))

theorem runes_head {s : Str} (hs : s ≠ []) : ∃ rs, runes s = (decodeRune s).1 :: rs := by
  obtain ⟨b,s,rfl⟩ := List.exists_cons_of_ne_nil hs
  exact ⟨_,rfl⟩

theorem runes_glyph (g : Glyph) (t : Str) : runes (g.bytes ++ t) = g.rune :: runes t := by
  rw [runes,rangeString,rangeFrom_glyph,List.map_cons]
  exact congrArg _ (rangeFrom_runes t 0 _ 0)

theorem runes_ascii {b : UInt8} (hb : b < 0x80) (s : Str) :
    runes (b :: s) = b.toNat :: runes s :=
  runes_glyph (asciiGlyph b hb) s

theorem runes_spell (gs : List Glyph) (t : Str) :
    runes (utf8.spell gs ++ t) = gs.map Glyph.rune ++ runes t := by
  induction gs with
  | nil => rfl
  | cons g gs ih =>
    rw [Code.spell_cons,List.append_assoc,List.map_cons,List.cons_append,← ih]
    exact runes_glyph g _

theorem runes_spelled (gs : List Glyph) : runes (utf8.spell gs) = gs.map Glyph.rune := by
  simpa [runes,rangeString,rangeFrom] using runes_spell gs []

theorem runes_invalid {b : UInt8} {s : Str} (h : decodeRune (b :: s) = (runeError,1)) :
    runes (b :: s) = runeError :: runes s := by
  rw [runes,rangeString,rangeFrom,h,List.map_cons]
  exact congrArg _ (rangeFrom_runes s 0 _ 0)

theorem decodeRune_cont {b : UInt8} (hb : isCont b = true) (s : Str) :
    decodeRune (b :: s) = (runeError,1) := by
  have hlow : ¬b < 0x80 := UInt8.not_lt.mpr (isCont_le hb)
  have hnone : acceptRange b = none := by
    simp only [isCont,Bool.and_eq_true,decide_eq_true_eq,UInt8.le_iff_toNat_le,
      UInt8.reduceToNat] at hb
    simp only [acceptRange,UInt8.le_iff_toNat_le,UInt8.reduceToNat,← UInt8.toNat_inj]
    repeat rw [if_neg (by omega)]
  rw [decodeRune,if_neg hlow,decodeMulti.eq_def,hnone]

theorem runes_cont {s : Str} (hs : ∀ c ∈ s, isCont c = true) : ∀ r ∈ runes s, r = runeError := by
  induction s with
  | nil => simp [runes,rangeString,rangeFrom]
  | cons b s ih =>
    rw [runes_invalid (decodeRune_cont (hs b (by simp)) s)]
    simpa using ih (fun c hc => hs c (by simp [hc]))

theorem runes_cut {g : Glyph} {w : Str} (h : w <+: g.bytes) (hne : w ≠ g.bytes) :
    ∀ r ∈ runes w, r = runeError := by
  cases w with
  | nil => simp [runes,rangeString,rangeFrom]
  | cons b w =>
    obtain ⟨rest,hrest⟩ := h
    have hinvalid : decodeRune (b :: w) = (runeError,1) := by
      by_contra hvalid
      obtain ⟨g',t,ht⟩ := exists_glyph (by simp) hvalid
      have hg : g' = g := by
        refine glyph_free (s := t ++ rest) (t := []) ?_
        rw [List.append_nil,← hrest,ht,List.append_assoc]
      have hlen := congrArg List.length hrest
      rw [ht,hg,List.length_append,List.length_append] at hlen
      exact hne (by rw [ht,hg,List.length_eq_zero_iff.mp (by omega : t.length = 0),List.append_nil])
    have hcont : ∀ c ∈ w, isCont c = true := by
      intro c hc
      rcases g.cases with ⟨b',-,hg⟩ | ⟨b0,u,-,hg,hu⟩
      · rw [hg,List.cons_append,List.cons.injEq,List.append_eq_nil_iff] at hrest
        rw [hrest.2.1] at hc
        cases hc
      · rw [hg,List.cons_append,List.cons.injEq] at hrest
        exact hu.cont c (by rw [← hrest.2]; exact List.mem_append_left rest hc)
    rw [runes_invalid hinvalid]
    simpa using runes_cont hcont

end Go
